import Mathlib.Data.List.DropRight
import Dockerfile.Proofs.Text.Bytes

/-!
# Slices and trimmed excerpts

The slice between two characters of an excerpt has the characters between them
(`Excerpt.chars_slice`), and trimming takes away the blanks around an excerpt (`Excerpt.chars_trim`).
-/

namespace Dockerfile

theorem Placed.takeFit_append (a b : List Placed) : takeFit size (total size a) (a ++ b) = a := by
  induction a with
  | nil =>
      cases b with
      | nil => rfl
      | cons p b =>
          have := p.size_pos
          rw [total_nil, List.nil_append, takeFit, if_neg (by omega)]
  | cons p a ih =>
      rw [total_cons, List.cons_append, takeFit, if_pos (Nat.le_add_right _ _),
        Nat.add_sub_cancel_left, ih]

theorem Placed.dropFit_append (a b : List Placed) : dropFit size (total size a) (a ++ b) = b := by
  have h := takeFit_append_dropFit size (total size a) (a ++ b)
  rw [takeFit_append] at h
  exact List.append_cancel_left h

theorem Placed.text_rdropWhile (f : Char → Bool) (chars : List Placed) :
    text (chars.rdropWhile fun p => f p.char) = (text chars).rdropWhile f := by
  have hdrop := text_dropWhile f chars.reverse
  rw [text, text, List.map_reverse] at hdrop
  rw [List.rdropWhile, List.rdropWhile, text, text, List.map_reverse, hdrop]

theorem mem_dropWhile {α : Type} {f : α → Bool} {xs : List α} {x : α} (hx : x ∈ xs)
    (hf : f x = false) : x ∈ xs.dropWhile f := by
  rw [← @List.takeWhile_append_dropWhile _ f xs] at hx
  rcases List.mem_append.mp hx with hx | hx
  · exact absurd (List.mem_takeWhile_imp hx) (by simp [hf])
  · exact hx

/-- Behind what ends with another element, the trailing elements are those that follow. -/
theorem rdropWhile_append {α : Type} {f : α → Bool} {xs ys : List α} (hne : xs ≠ [])
    (hlast : f (xs.getLast hne) = false) (hys : ∀ y ∈ ys, f y = true) :
    (xs ++ ys).rdropWhile f = xs := by
  rw [List.rdropWhile, List.reverse_append,
    List.dropWhile_append_of_pos fun y hy => hys y (List.mem_reverse.mp hy)]
  exact List.rdropWhile_eq_self_iff.mpr fun _ => by simp [hlast]

theorem Text.trimBlanksEnd_text_append {a b : List Placed}
    (ha : ∀ p ∈ a.getLast?, isBlank p.char = false) (hb : ∀ p ∈ b, isBlank p.char = true) :
    trimBlanksEnd (Placed.text (a ++ b)) = Placed.text a := by
  have hdrop : trimBlanksEnd (Placed.text (a ++ b)) =
      Placed.text ((a ++ b).rdropWhile fun p => isBlank p.char) :=
    (Placed.text_rdropWhile isBlank (a ++ b)).symm
  rw [hdrop]
  by_cases hne : a = []
  · rw [hne, List.nil_append, List.rdropWhile_eq_nil_iff.mpr hb]
  · rw [rdropWhile_append hne (ha _ (List.getLast?_eq_some_getLast hne)) hb]

namespace Excerpt

/-- Between two characters of an excerpt its bytes and its characters divide alike. -/
theorem slice_eq_part {e : Excerpt} {a b c : List Placed} (h : e.chars = a ++ (b ++ c)) :
    e.slice (total Placed.size a) (total Placed.size a + total Placed.size b) = e.part b c := by
  have hle : total Placed.size a + total Placed.size b ≤ e.byteLength := by
    rw [byteLength, h, total_append, total_append]
    omega
  unfold slice
  simp only [Nat.min_eq_left hle, Nat.min_eq_left (Nat.le_add_right _ _), Nat.add_sub_cancel_left, h,
    Placed.dropFit_append, Placed.takeFit_append]

theorem chars_slice {e : Excerpt} {a b c : List Placed} (h : e.chars = a ++ (b ++ c)) :
    (e.slice (total Placed.size a) (total Placed.size a + total Placed.size b)).chars = b :=
  congrArg chars (slice_eq_part h)

/-- The bounds of a trimmed excerpt are those of the characters between the blanks on either
side. -/
theorem exists_trimmedBounds (e : Excerpt) :
    ∃ lead kept tail, e.chars = lead ++ (kept ++ tail) ∧
      e.trimmedBounds = (total Placed.size lead, total Placed.size lead + total Placed.size kept) ∧
      (e.chars.dropWhile fun p => isBlank p.char) = kept ++ tail ∧
      (kept = (kept ++ tail).rdropWhile fun p => isBlank p.char) ∧
      ∀ p ∈ tail, isBlank p.char = true := by
  have hlead : (e.chars.takeWhile fun p => isBlank p.char) ++
      e.chars.dropWhile (fun p => isBlank p.char) = e.chars := List.takeWhile_append_dropWhile
  have hblank : ∀ p ∈ e.chars.takeWhile fun p => isBlank p.char, isBlank p.char = true :=
    fun p hp => @List.mem_takeWhile_imp _ (fun p : Placed => isBlank p.char) _ p hp
  have hhead := List.head?_dropWhile_not (fun p : Placed => isBlank p.char) e.chars
  have hbounds : e.trimmedBounds = (total Placed.size (e.chars.takeWhile fun p => isBlank p.char),
      max (Text.byteLength (Text.trimBlanksEnd e.text))
        (total Placed.size (e.chars.takeWhile fun p => isBlank p.char))) := rfl
  rw [hbounds]
  generalize e.chars.takeWhile (fun p => isBlank p.char) = lead at *
  generalize e.chars.dropWhile (fun p => isBlank p.char) = body at *
  have hsplit := @List.rdropWhile_append_rtakeWhile _ (fun p : Placed => isBlank p.char) body
  have htail : ∀ p ∈ body.rtakeWhile fun p => isBlank p.char, isBlank p.char = true :=
    fun p hp => @List.mem_rtakeWhile_imp _ (fun p : Placed => isBlank p.char) _ p hp
  have hlast := @List.rdropWhile_last_not _ (fun p : Placed => isBlank p.char) body
  have hnil := @List.rdropWhile_eq_nil_iff _ (fun p : Placed => isBlank p.char) body
  generalize hkept' : body.rdropWhile (fun p => isBlank p.char) = kept at *
  generalize body.rtakeWhile (fun p => isBlank p.char) = tail at *
  refine ⟨lead, kept, tail, by rw [hsplit, hlead], congrArg (Prod.mk _) ?_, hsplit.symm,
    by rw [hsplit, hkept'], htail⟩
  have hmap : Text.trimBlanksEnd e.text =
      Placed.text (e.chars.rdropWhile fun p => isBlank p.char) :=
    (Placed.text_rdropWhile isBlank e.chars).symm
  rw [hmap, ← Placed.total_size, ← hlead, ← hsplit, ← List.append_assoc]
  by_cases hkept : kept = []
  · -- What starts with no blank is trimmed to nothing only if it is nothing.
    have hbody := hnil.mp hkept
    obtain rfl : body = [] := by
      cases body with
      | nil => rfl
      | cons p body => simp [hbody p List.mem_cons_self] at hhead
    obtain ⟨rfl, rfl⟩ := List.append_eq_nil_iff.mp hsplit
    rw [List.append_nil, List.append_nil, List.rdropWhile_eq_nil_iff.mpr hblank]
    simp
  · have hne : lead ++ kept ≠ [] := by simp [hkept]
    rw [rdropWhile_append hne (by simpa [hkept] using hlast hkept) htail, total_append,
      Nat.max_eq_left (Nat.le_add_right _ _)]

/-- Trimming takes away the blanks on either side. -/
theorem chars_trim (e : Excerpt) :
    e.trim.chars =
      (e.chars.dropWhile fun p => isBlank p.char).rdropWhile fun p => isBlank p.char := by
  obtain ⟨lead, kept, tail, hchars, hbounds, hdrop, hkept, -⟩ := e.exists_trimmedBounds
  rw [trim, hbounds, hdrop, ← hkept]
  exact chars_slice hchars

theorem mem_of_mem_trim {e : Excerpt} {p : Placed} (h : p ∈ e.trim.chars) : p ∈ e.chars := by
  rw [chars_trim] at h
  exact (List.dropWhile_suffix _).mem ((List.rdropWhile_prefix _ _).mem h)

theorem mem_trim {e : Excerpt} {p : Placed} (h : p ∈ e.chars) (hblank : isBlank p.char = false) :
    p ∈ e.trim.chars := by
  rw [chars_trim, List.rdropWhile, List.mem_reverse]
  exact mem_dropWhile (List.mem_reverse.mpr (mem_dropWhile h hblank)) hblank

theorem text_trim (e : Excerpt) : e.trim.text = Text.trimBlanks e.text := by
  rw [text, chars_trim, Placed.text_rdropWhile, Placed.text_dropWhile]
  rfl

end Excerpt

end Dockerfile
