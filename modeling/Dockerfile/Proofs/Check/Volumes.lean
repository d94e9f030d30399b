import Dockerfile.Analysis
import Dockerfile.Proofs.File.Ends
import Dockerfile.Proofs.StringArray.Faults

/-!
# Volumes written as arrays

What looks like an array is exempt from the check of its quotes, since reading it as an array is to find
whatever is wrong with it. The two do not pass over the same white space: a bracket behind a no-break
space looks like an array, and reading does not take it for one (`StringArray.opens_iff`). Such a volume
is not looked at any further, and all others are (`Check.volume_checked_iff`).
-/

namespace Dockerfile

namespace StringArray

variable {quote escape : Char} {e : Excerpt}

/-- The white space in front of the text is what may stand between the parts of an array. -/
def Spaced (e : Excerpt) : Prop :=
  ∀ c ∈ e.text.takeWhile isWhiteSpace, isSpace c = true

theorem isWhiteSpace_of_isSpace {c : Char} (h : isSpace c = true) : isWhiteSpace c = true := by
  simp only [isSpace, Bool.or_eq_true, beq_iff_eq] at h
  rcases h with ((rfl | rfl) | rfl) | rfl <;> decide

/-- Behind the bracket, whatever is wrong is an unexpected character or end. -/
theorem elements_ne_notAnArray (stop : Nat) (expect : Expect) (chars : List Placed) :
    elements quote escape stop expect chars ≠ .error .notAnArray := by
  intro h
  fun_induction elements quote escape stop expect chars with
  | case1 => cases h
  | case2 => cases h
  | case3 _ _ _ _ ih => exact ih h
  | case4 => cases h
  | case5 _ _ _ _ ih => exact ih h
  | case6 _ _ _ _ _ ih => exact ih h
  | case7 => cases h
  | case8 _ _ _ _ hclose _ _ ih =>
      rw [if_pos hclose] at h
      exact ih h
  | case9 _ _ _ _ hclose hquote hnone =>
      simp only [if_neg hclose, if_pos hquote] at h
      split at h <;> simp_all
  | case10 _ _ _ _ hclose hquote value last rest' hread _ _ ih =>
      simp only [if_neg hclose, if_pos hquote] at h
      split at h
      · cases h
      · rename_i hread'
        rw [hread] at hread'
        cases hread'
        cases hrest : elements quote escape stop .commaOrClose rest' <;> simp_all [Except.map]
  | case11 _ _ _ _ hclose hquote =>
      simp only [if_neg hclose, if_neg hquote] at h
      cases h

theorem parse_eq_notAnArray_iff : parse quote escape e = .error .notAnArray ↔ ¬ Opens e := by
  constructor
  · intro h hopens
    obtain ⟨front, opening, rest, hchars, hfront, hopening⟩ := hopens
    rw [parse_bracket hchars hfront hopening] at h
    cases helements : elements quote escape e.stop .valueOrClose rest with
    | ok r =>
        rw [helements] at h
        cases h
    | error error =>
        rw [helements] at h
        cases h
        exact elements_ne_notAnArray _ _ _ helements
  · intro hopens
    unfold parse
    have hsplit := @List.takeWhile_append_dropWhile _ (fun p : Placed => isSpace p.char) e.chars
    split
    · rename_i opening rest hdrop
      rw [hdrop] at hsplit
      refine if_neg fun hopening => hopens ⟨_, opening, rest, hsplit.symm, ?_, hopening⟩
      intro p hp
      exact (isSpace_iff _).mp (List.all_eq_true.mp List.all_takeWhile p hp)
    · rfl

theorem exists_of_looksLike (h : looksLike e = true) :
    ∃ front opening rest, e.chars = front ++ opening :: rest ∧
      Placed.text front = e.text.takeWhile isWhiteSpace ∧ opening.char = '[' := by
  have hsplit := @List.takeWhile_append_dropWhile _ (fun p : Placed => isWhiteSpace p.char) e.chars
  have hhead : (e.text.dropWhile isWhiteSpace).head? = some '[' := eq_of_beq h
  rw [Excerpt.text, ← Placed.text_dropWhile] at hhead
  cases hdrop : e.chars.dropWhile fun p => isWhiteSpace p.char with
  | nil =>
      rw [hdrop] at hhead
      cases hhead
  | cons opening rest =>
      rw [hdrop] at hhead hsplit
      exact ⟨_, opening, rest, hsplit.symm, Placed.text_takeWhile _ _, Option.some.inj hhead⟩

/-- Of what looks like an array, a bracket opens what stands behind white space of the grammar only. -/
theorem opens_iff (h : looksLike e = true) : Opens e ↔ Spaced e := by
  obtain ⟨front, opening, rest, hchars, hfront, hopening⟩ := exists_of_looksLike h
  constructor
  · rintro ⟨space, bracket, rest', hchars', hspace, hbracket⟩
    have htake : e.text.takeWhile isWhiteSpace = Placed.text space := by
      have hall : ∀ c ∈ Placed.text space, isWhiteSpace c = true := by
        intro c hc
        obtain ⟨p, hp, rfl⟩ := List.mem_map.mp hc
        exact isWhiteSpace_of_isSpace ((isSpace_iff _).mpr (hspace p hp))
      rw [Excerpt.text, hchars', Placed.text_append, Placed.text_cons]
      exact (Text.spanWhile hall (by simp [hbracket]; decide)).1
    intro c hc
    rw [htake] at hc
    obtain ⟨p, hp, rfl⟩ := List.mem_map.mp hc
    exact (isSpace_iff _).mpr (hspace p hp)
  · intro hspaced
    refine ⟨front, opening, rest, hchars, ?_, hopening⟩
    intro p hp
    refine (isSpace_iff _).mp (hspaced p.char ?_)
    rw [← hfront]
    exact List.mem_map_of_mem hp

end StringArray

namespace Check

open StringArray

/-- The check of a volume says of a region that is no array of strings where it stops to be one, in a
single report, and nothing of one that is. -/
def VolumeChecked (inst : Instruction) : Prop :=
  (¬ Accepts '"' inst.escape inst.region →
      ∃ span found, volume inst = [⟨.unexpectedToken found, span⟩]) ∧
    (Accepts '"' inst.escape inst.region → volume inst = [])

variable {inst : Instruction}

theorem volumeChecked_of_opens (hlooks : isArrayVolume inst = true) (hopens : Opens inst.region) :
    VolumeChecked inst := by
  unfold VolumeChecked volume
  rw [if_pos hlooks]
  cases hparse : parse '"' inst.escape inst.region with
  | ok array =>
      have haccepts : Accepts '"' inst.escape inst.region := ⟨array, hparse⟩
      exact ⟨fun h => absurd haccepts h, fun _ => rfl⟩
  | error error =>
      have hrejects : ¬ Accepts '"' inst.escape inst.region := by
        rintro ⟨array, harray⟩
        rw [hparse] at harray
        cases harray
      cases error with
      | notAnArray => exact absurd hopens (parse_eq_notAnArray_iff.mp hparse)
      | unexpected span found => exact ⟨fun _ => ⟨span, found, rfl⟩, fun h => absurd h hrejects⟩

theorem volume_of_not_opens (hopens : ¬ Opens inst.region) : volume inst = [] := by
  unfold volume
  rw [parse_eq_notAnArray_iff.mpr hopens]
  split <;> rfl

theorem not_accepts_of_not_opens (hopens : ¬ Opens inst.region) :
    ¬ Accepts '"' inst.escape inst.region := by
  rintro ⟨array, harray⟩
  rw [parse_eq_notAnArray_iff.mpr hopens] at harray
  cases harray

theorem arguments_ne_nil (hlooks : looksLike inst.region = true) : inst.arguments ≠ [] := by
  intro hnil
  obtain ⟨front, opening, rest, hchars, -, hopening⟩ := exists_of_looksLike hlooks
  have hblank := Argument.blank_of_splitFrom_nil hnil opening (by rw [hchars]; simp)
  rw [hopening] at hblank
  cases hblank

/-- Of a volume that looks like an array, only the array is looked at. -/
theorem behindKeyword_volume (hkind : inst.kind = some .VOLUME) (hlooks : isArrayVolume inst = true) :
    behindKeyword .VOLUME inst = volume inst := by
  have htrigger : inst.trigger? = none := by
    cases ht : inst.trigger? with
    | none => rfl
    | some trigger =>
        have honbuild := kind_of_trigger? ht
        rw [hkind] at honbuild
        cases honbuild
  have hargs : inst.arguments.isEmpty = false := by simpa using arguments_ne_nil hlooks
  simp [behindKeyword, hargs, hlooks, htrigger, Keyword.bearsFlags, ofKeyword]

/-- Whatever looks like an array in a volume is checked as the grammar of arrays asks for, if and only if
the white space in front of the bracket is that of the grammar. Otherwise reading it says that it is no
array, and nothing behind the keyword is looked at. -/
theorem volume_checked_iff (hkind : inst.kind = some .VOLUME) (hlooks : isArrayVolume inst = true) :
    (VolumeChecked inst ↔ Spaced inst.region) ∧
      (parse '"' inst.escape inst.region = .error .notAnArray ↔ ¬ Spaced inst.region) ∧
      (¬ Spaced inst.region → instruction inst = keyword .VOLUME inst) := by
  rw [← opens_iff hlooks, instruction_of_kind hkind, behindKeyword_volume hkind hlooks]
  refine ⟨⟨?_, volumeChecked_of_opens hlooks⟩, parse_eq_notAnArray_iff, ?_⟩
  · intro hchecked
    refine Classical.byContradiction fun hopens => ?_
    obtain ⟨span, found, hvolume⟩ := hchecked.1 (not_accepts_of_not_opens hopens)
    rw [volume_of_not_opens hopens] at hvolume
    cases hvolume
  · intro hopens
    rw [volume_of_not_opens hopens, List.append_nil]

/-- The comma between two strings is missing. -/
theorem volume_checked_comma :
    let text := "FROM a\nvolume\t[\"b\" \"c\"]".toList
    ∃ inst ∈ (File.parse text).instructions, inst.kind = some .VOLUME ∧
      isArrayVolume inst = true ∧ VolumeChecked inst ∧
      ∃ span found, volume inst = [⟨.unexpectedToken found, span⟩] := by
  intro text
  have hfound : (File.parse text).instructions[1]?.any (fun inst =>
      decide (inst.kind = some .VOLUME ∧ isArrayVolume inst = true ∧
        (inst.region.text.takeWhile isWhiteSpace).all isSpace = true ∧
        (parse '"' inst.escape inst.region).isOk = false)) = true := by
    decide +kernel
  obtain ⟨inst, hinst, hchecked⟩ := (Option.any_eq_true _ _).mp hfound
  obtain ⟨hkind, hlooks, hspaced, hparse⟩ := of_decide_eq_true hchecked
  have hvolume := (volume_checked_iff hkind hlooks).1.mpr (List.all_eq_true.mp hspaced)
  refine ⟨inst, List.mem_of_getElem? hinst, hkind, hlooks, hvolume, hvolume.1 ?_⟩
  rintro ⟨array, harray⟩
  rw [harray] at hparse
  cases hparse

/-- A no-break space stands in front of the bracket, and nothing is reported. -/
theorem not_volumeChecked :
    let text := "FROM a\nVOLUME \u00a0[x]".toList
    (∃ inst ∈ (File.parse text).instructions, inst.kind = some .VOLUME ∧
      isArrayVolume inst = true ∧ ¬ VolumeChecked inst) ∧ (analyze text {}).diagnostics = [] := by
  intro text
  have hfound : (File.parse text).instructions[1]?.any (fun inst =>
      decide (inst.kind = some .VOLUME ∧ isArrayVolume inst = true ∧
        parse '"' inst.escape inst.region = .error .notAnArray ∧ volume inst = [])) = true := by
    decide +kernel
  obtain ⟨inst, hinst, hchecked⟩ := (Option.any_eq_true _ _).mp hfound
  obtain ⟨hkind, hlooks, hparse, hvolume⟩ := of_decide_eq_true hchecked
  refine ⟨⟨inst, List.mem_of_getElem? hinst, hkind, hlooks, ?_⟩, by decide +kernel⟩
  intro h
  obtain ⟨span, found, hreported⟩ :=
    h.1 (not_accepts_of_not_opens (parse_eq_notAnArray_iff.mp hparse))
  rw [hvolume] at hreported
  cases hreported

end Check

end Dockerfile
