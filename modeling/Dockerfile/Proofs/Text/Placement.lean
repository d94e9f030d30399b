import Dockerfile.Text.Excerpt

/-!
# Placed text

What `Text.place` says about the bytes of a text. Every character of a placed text stands where its
offset says, the offsets follow each other without gap or overlap, and each end of a placed text is
a placed text again. Character boundaries are the offsets at which a text can be cut in two.
-/

namespace Dockerfile

namespace Text

@[simp] theorem byteLength_nil : byteLength [] = 0 := rfl

@[simp] theorem byteLength_cons (c : Char) (text : Text) :
    byteLength (c :: text) = c.utf8Size + byteLength text := rfl

@[simp] theorem byteLength_append (a b : Text) :
    byteLength (a ++ b) = byteLength a + byteLength b :=
  total_append _ a b

theorem byteLength_le_of_suffix {a b : Text} (h : a <:+ b) : byteLength a ≤ byteLength b := by
  obtain ⟨front, rfl⟩ := h
  rw [byteLength_append]
  exact Nat.le_add_left _ _

theorem byteLength_reverse (text : Text) : byteLength text.reverse = byteLength text := by
  induction text with
  | nil => rfl
  | cons c text ih => simp [ih, Nat.add_comm]

@[simp] theorem place_nil (offset : Nat) : place offset [] = [] := rfl

@[simp] theorem place_cons (offset : Nat) (c : Char) (text : Text) :
    place offset (c :: text) = ⟨c, offset⟩ :: place (offset + c.utf8Size) text := rfl

theorem place_append (offset : Nat) (a b : Text) :
    place offset (a ++ b) = place offset a ++ place (offset + byteLength a) b := by
  induction a generalizing offset with
  | nil => simp
  | cons c a ih => simp [ih, Nat.add_assoc]

@[simp] theorem text_place (offset : Nat) (text : Text) : Placed.text (place offset text) = text := by
  induction text generalizing offset with
  | nil => rfl
  | cons c text ih =>
      show c :: Placed.text (place (offset + c.utf8Size) text) = c :: text
      rw [ih]

@[simp] theorem length_place (offset : Nat) (text : Text) :
    (place offset text).length = text.length := by
  induction text generalizing offset with
  | nil => rfl
  | cons c text ih => simp [ih]

theorem place_around {offset : Nat} {a b : Text} {p : Placed} (h : p.offset = offset + byteLength a) :
    place offset (a ++ p.char :: b) = place offset a ++ p :: place p.stop b := by
  rw [place_append, place_cons, ← h]
  rfl

theorem exists_split_of_mem_place {offset : Nat} {text : Text} {p : Placed}
    (h : p ∈ place offset text) :
    ∃ a b, text = a ++ p.char :: b ∧ p.offset = offset + byteLength a := by
  induction text generalizing offset with
  | nil => simp at h
  | cons c text ih =>
      rcases List.mem_cons.mp h with rfl | h
      · exact ⟨[], text, rfl, rfl⟩
      · obtain ⟨a, b, rfl, ho⟩ := ih h
        exact ⟨c :: a, b, rfl, by simp only [byteLength_cons]; omega⟩

theorem char_mem_of_mem_place {offset : Nat} {text : Text} {p : Placed} (h : p ∈ place offset text) :
    p.char ∈ text := by
  obtain ⟨a, b, rfl, -⟩ := exists_split_of_mem_place h
  simp

theorem isBlank_of_mem_place {offset : Nat} {text : Text} (h : ∀ c ∈ text, isBlank c = true) :
    ∀ p ∈ place offset text, isBlank p.char = true :=
  fun p hp => h p.char (char_mem_of_mem_place hp)

theorem exists_split_of_suffix_place {offset : Nat} {text : Text} {chars : List Placed}
    (h : chars <:+ place offset text) :
    ∃ a b, text = a ++ b ∧ chars = place (offset + byteLength a) b := by
  induction text generalizing offset with
  | nil => exact ⟨[], [], rfl, by simpa using h⟩
  | cons c text ih =>
      rcases List.suffix_cons_iff.mp h with rfl | h
      · exact ⟨[], c :: text, rfl, rfl⟩
      · obtain ⟨a, b, rfl, rfl⟩ := ih h
        exact ⟨c :: a, b, rfl, by simp [Nat.add_assoc]⟩

theorem offset_of_mem_place {offset : Nat} {text : Text} {p : Placed} (h : p ∈ place offset text) :
    offset ≤ p.offset ∧ p.stop ≤ offset + byteLength text := by
  obtain ⟨a, b, rfl, ho⟩ := exists_split_of_mem_place h
  simp only [Placed.stop, Placed.size, byteLength_append, byteLength_cons]
  omega

/-- Placed characters follow each other without overlap. -/
theorem pairwise_place (offset : Nat) (text : Text) :
    (place offset text).Pairwise fun p q => p.stop ≤ q.offset := by
  induction text generalizing offset with
  | nil => simp
  | cons c text ih =>
      rw [place_cons, List.pairwise_cons]
      exact ⟨fun q hq => (offset_of_mem_place hq).1, ih _⟩

end Text

namespace Placed

theorem size_pos (p : Placed) : 0 < p.size :=
  p.char.utf8Size_pos

theorem offset_lt_stop (p : Placed) : p.offset < p.stop :=
  Nat.lt_add_of_pos_right p.size_pos

theorem total_size (chars : List Placed) : total size chars = Text.byteLength (text chars) := by
  induction chars with
  | nil => rfl
  | cons p chars ih => exact congrArg (p.size + ·) ih

@[simp] theorem text_nil : text [] = [] := rfl

@[simp] theorem text_cons (p : Placed) (chars : List Placed) :
    text (p :: chars) = p.char :: text chars := rfl

@[simp] theorem text_append (a b : List Placed) : text (a ++ b) = text a ++ text b :=
  List.map_append

@[simp] theorem startOr_nil (stop : Nat) : startOr stop [] = stop := rfl

@[simp] theorem startOr_cons (stop : Nat) (p : Placed) (chars : List Placed) :
    startOr stop (p :: chars) = p.offset := rfl

theorem text_takeWhile (f : Char → Bool) (chars : List Placed) :
    Placed.text (chars.takeWhile fun p => f p.char) = (Placed.text chars).takeWhile f := by
  rw [Placed.text, Placed.text, List.takeWhile_map]
  rfl

theorem text_dropWhile (f : Char → Bool) (chars : List Placed) :
    Placed.text (chars.dropWhile fun p => f p.char) = (Placed.text chars).dropWhile f := by
  rw [Placed.text, Placed.text, List.dropWhile_map]
  rfl

/-- Of characters that follow each other, no two are equal. -/
theorem nodup_of_pairwise {chars : List Placed} (h : chars.Pairwise fun p q => p.stop ≤ q.offset) :
    chars.Nodup := by
  refine h.imp ?_
  rintro p q hpq rfl
  exact absurd hpq (Nat.not_le_of_lt p.offset_lt_stop)

end Placed

namespace Text

/-- Where placed characters are cut, the text is cut. -/
theorem split_of_place_eq {offset : Nat} {text : Text} {a b : List Placed}
    (h : place offset text = a ++ b) :
    text = Placed.text a ++ Placed.text b ∧ a = place offset (Placed.text a) ∧
      b = place (offset + byteLength (Placed.text a)) (Placed.text b) := by
  have htext : text = Placed.text a ++ Placed.text b := by
    rw [← Placed.text_append, ← h, text_place]
  rw [htext, place_append] at h
  have hlength : (place offset (Placed.text a)).length = a.length := by
    rw [length_place, Placed.text, List.length_map]
  obtain ⟨ha, hb⟩ := List.append_inj h hlength
  exact ⟨htext, ha.symm, hb.symm⟩

theorem nodup_place (offset : Nat) (text : Text) : (place offset text).Nodup :=
  Placed.nodup_of_pairwise (pairwise_place offset text)

theorem dropWhile_place (f : Char → Bool) (text : Text) (offset : Nat) :
    (place offset text).dropWhile (fun p => f p.char) =
      place (offset + byteLength (text.takeWhile f)) (text.dropWhile f) := by
  induction text generalizing offset with
  | nil => rfl
  | cons c text ih =>
      rw [place_cons, List.dropWhile_cons, List.takeWhile_cons, List.dropWhile_cons]
      split
      · rw [ih, byteLength_cons, Nat.add_assoc]
      · rfl

theorem takeWhile_place (f : Char → Bool) (text : Text) (offset : Nat) :
    (place offset text).takeWhile (fun p => f p.char) = place offset (text.takeWhile f) := by
  induction text generalizing offset with
  | nil => rfl
  | cons c text ih =>
      rw [place_cons, List.takeWhile_cons, List.takeWhile_cons]
      split
      · rw [ih, place_cons]
      · rfl

/-- The beginning of a text that satisfies a condition, and what follows. -/
theorem spanWhile {f : Char → Bool} {a b : Text} (ha : ∀ c ∈ a, f c = true)
    (hb : ∀ c ∈ b.head?, f c = false) :
    (a ++ b).takeWhile f = a ∧ (a ++ b).dropWhile f = b := by
  rw [List.takeWhile_append_of_pos ha, List.dropWhile_append_of_pos ha]
  cases b with
  | nil => exact ⟨List.append_nil a, rfl⟩
  | cons c b =>
      have hc : ¬f c = true := by simp [hb c rfl]
      rw [List.takeWhile_cons_of_neg hc, List.dropWhile_cons_of_neg hc, List.append_nil]
      exact ⟨rfl, rfl⟩

theorem startOr_place (offset : Nat) (text : Text) :
    Placed.startOr (offset + byteLength text) (place offset text) = offset := by
  cases text <;> rfl

theorem trimBlanksEnd_prefix (text : Text) : trimBlanksEnd text <+: text := by
  rw [trimBlanksEnd, ← List.reverse_suffix, List.reverse_reverse]
  exact List.dropWhile_suffix _

/-! ## Cutting at boundaries -/

theorem takeBytes_append_byteLength (a b : Text) : takeBytes (byteLength a) (a ++ b) = a := by
  induction a with
  | nil =>
      cases b with
      | nil => rfl
      | cons c b =>
          have := c.utf8Size_pos
          simp [takeBytes, takeFit, show ¬ c.utf8Size ≤ 0 by omega]
  | cons c a ih =>
      show takeFit _ (c.utf8Size + byteLength a) (c :: (a ++ b)) = _
      rw [takeFit, if_pos (Nat.le_add_right _ _), Nat.add_sub_cancel_left]
      exact congrArg (c :: ·) ih

theorem dropBytes_append_byteLength (a b : Text) : dropBytes (byteLength a) (a ++ b) = b := by
  have h : takeBytes (byteLength a) (a ++ b) ++ dropBytes (byteLength a) (a ++ b) = a ++ b :=
    takeFit_append_dropFit _ _ _
  rw [takeBytes_append_byteLength] at h
  exact List.append_cancel_left h

/-- Cutting within the first of two texts leaves the second whole. -/
theorem cut_append_of_le {limit : Nat} {a : Text} (h : limit ≤ byteLength a) (b : Text) :
    takeBytes limit (a ++ b) = takeBytes limit a ∧
      dropBytes limit (a ++ b) = dropBytes limit a ++ b := by
  induction a generalizing limit with
  | nil =>
      obtain rfl : limit = 0 := Nat.le_zero.mp h
      exact ⟨takeBytes_append_byteLength [] b, dropBytes_append_byteLength [] b⟩
  | cons c a ih =>
      simp only [List.cons_append, takeBytes, dropBytes, takeFit, dropFit]
      by_cases hc : c.utf8Size ≤ limit
      · rw [byteLength_cons] at h
        have hle : limit - c.utf8Size ≤ byteLength a := by omega
        obtain ⟨htake, hdrop⟩ := ih hle
        simp only [if_pos hc]
        exact ⟨congrArg (c :: ·) htake, hdrop⟩
      · simp only [if_neg hc]
        exact ⟨trivial, rfl⟩

theorem takeBytes_append_dropBytes (limit : Nat) (text : Text) :
    takeBytes limit text ++ dropBytes limit text = text :=
  takeFit_append_dropFit _ _ _

theorem slice_append (a b c : Text) :
    slice (a ++ (b ++ c)) ⟨byteLength a, byteLength a + byteLength b⟩ = b := by
  have hstart : floorBoundary (a ++ (b ++ c)) (byteLength a) = byteLength a := by
    rw [floorBoundary, takeBytes_append_byteLength]
  have hstop : floorBoundary (a ++ (b ++ c)) (byteLength a + byteLength b) =
      byteLength a + byteLength b := by
    rw [floorBoundary, ← byteLength_append, ← List.append_assoc, takeBytes_append_byteLength]
  rw [slice, clampSpan, hstart, hstop, Nat.max_eq_right (Nat.le_add_right _ _),
    dropBytes_append_byteLength, Nat.add_sub_cancel_left, takeBytes_append_byteLength]

theorem slice_append_of_le {front : Text} {span : Span} (hstart : span.start ≤ byteLength front)
    (hstop : span.stop ≤ byteLength front) (rest : Text) :
    slice (front ++ rest) span = slice front span := by
  have hfloor : floorBoundary front span.start ≤ byteLength front := by
    have := total_takeFit_le Char.utf8Size span.start front
    exact Nat.le_trans this hstart
  simp only [slice, clampSpan, floorBoundary, (cut_append_of_le hstart rest).1,
    (cut_append_of_le hstop rest).1]
  have hsplit := congrArg byteLength (takeBytes_append_dropBytes (floorBoundary front span.start) front)
  have hfront := congrArg byteLength (takeBytes_append_dropBytes span.stop front)
  have htake : byteLength (takeBytes (floorBoundary front span.start) front) ≤
      floorBoundary front span.start := total_takeFit_le Char.utf8Size _ front
  rw [byteLength_append] at hsplit hfront
  unfold floorBoundary at hsplit htake hfloor
  rw [(cut_append_of_le hfloor rest).2, (cut_append_of_le ?_ rest).1]
  omega

theorem isBoundary_iff {text : Text} {offset : Nat} :
    isBoundary text offset = true ↔ ∃ a b, text = a ++ b ∧ byteLength a = offset := by
  constructor
  · intro h
    exact ⟨takeBytes offset text, dropBytes offset text, (takeBytes_append_dropBytes _ _).symm,
      by simpa [isBoundary, floorBoundary] using h⟩
  · rintro ⟨a, b, rfl, rfl⟩
    simp [isBoundary, floorBoundary, takeBytes_append_byteLength]

theorem le_byteLength_of_isBoundary {text : Text} {offset : Nat}
    (h : isBoundary text offset = true) : offset ≤ byteLength text := by
  obtain ⟨a, b, rfl, rfl⟩ := isBoundary_iff.mp h
  simp

theorem isBoundary_append (a b : Text) : isBoundary (a ++ b) (byteLength a) = true :=
  isBoundary_iff.mpr ⟨a, b, rfl, rfl⟩

theorem isBoundary_byteLength (text : Text) : isBoundary text (byteLength text) = true :=
  isBoundary_iff.mpr ⟨text, [], by simp, rfl⟩

theorem isBoundary_max {text : Text} {a b : Nat} (ha : isBoundary text a = true)
    (hb : isBoundary text b = true) : isBoundary text (max a b) = true := by
  rcases Nat.le_total a b with h | h
  · rwa [Nat.max_eq_right h]
  · rwa [Nat.max_eq_left h]

theorem isBoundary_of_mem_place {text : Text} {p : Placed} (h : p ∈ place 0 text) :
    isBoundary text p.offset = true ∧ isBoundary text p.stop = true := by
  obtain ⟨a, b, rfl, ho⟩ := exists_split_of_mem_place h
  have hoffset : byteLength a = p.offset := by omega
  refine ⟨isBoundary_iff.mpr ⟨a, p.char :: b, rfl, hoffset⟩,
    isBoundary_iff.mpr ⟨a ++ [p.char], b, by simp, ?_⟩⟩
  simp [Placed.stop, Placed.size, hoffset]

/-- A character in front of an end of the text stops where that end begins, or before. -/
theorem stop_le_startOr {text : Text} {a rest : List Placed} (h : a ++ rest <:+ place 0 text)
    {p : Placed} (hp : p ∈ a) : p.stop ≤ Placed.startOr (byteLength text) rest := by
  cases rest with
  | nil =>
      have := (offset_of_mem_place (h.mem (List.mem_append_left _ hp))).2
      rwa [Nat.zero_add] at this
  | cons q rest =>
      have hpair := List.Pairwise.sublist h.sublist (pairwise_place 0 text)
      exact (List.pairwise_append.mp hpair).2.2 p hp q List.mem_cons_self

/-- A shorter end begins later. -/
theorem startOr_le_startOr {text : Text} {chars rest : List Placed} (h : chars <:+ place 0 text)
    (hr : rest <:+ chars) :
    Placed.startOr (byteLength text) chars ≤ Placed.startOr (byteLength text) rest := by
  obtain ⟨a, rfl⟩ := hr
  cases a with
  | nil => exact Nat.le_refl _
  | cons p a =>
      have := stop_le_startOr h (List.mem_cons_self (a := p))
      have := p.offset_lt_stop
      rw [List.cons_append, Placed.startOr_cons]
      omega

/-- An end of a text begins before each of its characters. -/
theorem startOr_le_offset {text : Text} {chars : List Placed} (h : chars <:+ place 0 text)
    {p : Placed} (hp : p ∈ chars) : Placed.startOr (byteLength text) chars ≤ p.offset := by
  obtain ⟨a, b, rfl⟩ := List.append_of_mem hp
  exact startOr_le_startOr h (List.suffix_append a (p :: b))

theorem exists_split_of_append_suffix {text : Text} {a rest : List Placed}
    (h : a ++ rest <:+ place 0 text) :
    ∃ before, text = before ++ (Placed.text a ++ Placed.text rest) ∧
      Placed.startOr (byteLength text) (a ++ rest) = byteLength before ∧
      Placed.startOr (byteLength text) rest = byteLength before + byteLength (Placed.text a) := by
  obtain ⟨before, after, rfl, hplace⟩ := exists_split_of_suffix_place h
  rw [Nat.zero_add] at hplace
  have hafter : after = Placed.text a ++ Placed.text rest := by
    rw [← Placed.text_append, hplace, text_place]
  have hrest : rest = place (byteLength before + byteLength (Placed.text a)) (Placed.text rest) := by
    rw [hafter, place_append] at hplace
    refine (List.append_inj_right hplace ?_)
    rw [length_place, Placed.text, List.length_map]
  refine ⟨before, by rw [hafter], ?_, ?_⟩
  · rw [hplace, byteLength_append, startOr_place]
  · rw [hrest, hafter, byteLength_append, byteLength_append, ← Nat.add_assoc,
      startOr_place]

theorem isBoundary_startOr {text : Text} {chars : List Placed} (h : chars <:+ place 0 text) :
    isBoundary text (Placed.startOr (byteLength text) chars) = true := by
  cases chars with
  | nil => exact isBoundary_byteLength text
  | cons p chars => exact (isBoundary_of_mem_place (h.mem List.mem_cons_self)).1

end Text

end Dockerfile
