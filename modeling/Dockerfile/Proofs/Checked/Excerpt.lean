import Dockerfile.Proofs.Checked.Lines
import Dockerfile.Proofs.Text.Trim

/-!
# Excerpts, access by access

An excerpt keeps its characters and, in a list beside them, the offset of each of their bytes. A span
of it can be asked for between any two numbers. A part of it has to be cut between characters, and
then its text and its offsets are cut alike (`Checked.excerptSlice_eq`).
-/

namespace Dockerfile

theorem Excerpt.rawOffset_of_append {e : Excerpt} {a b : List Placed} (h : e.chars = a ++ b) :
    e.rawOffset (total Placed.size a) = Placed.startOr e.stop b := by
  have hoffset := offsetIn_append e.stop a b 0
  rw [Nat.add_zero] at hoffset
  rw [rawOffset, h, hoffset]
  cases b with
  | nil => rfl
  | cons p b => rw [offsetIn, if_pos p.size_pos]; rfl

namespace Checked

def spanAt (e : Excerpt) (start stop : Nat) : Checked Span := do
  let first := e.rawOffset start
  if stop ≤ start then return Span.empty first
  else
    let last := (e.offsets[← minus stop 1]?.map (· + 1)).getD e.stop
    span first (max last first)

def fullSpan (e : Excerpt) : Checked Span :=
  spanAt e 0 e.byteLength

def placeAt : Text → List Nat → List Placed
  | c :: text, offset :: offsets => ⟨c, offset⟩ :: placeAt text ((offset :: offsets).drop c.utf8Size)
  | _, _ => []

def stopOfSlice (e : Excerpt) (start stop : Nat) : Checked Nat := do
  if start < stop then return (← item e.offsets (← minus stop 1)) + 1 else return e.rawOffset start

def excerptSlice (e : Excerpt) (start stop : Nat) : Checked Excerpt := do
  let stop := min stop e.byteLength
  let start := min start stop
  let _ ← stopOfSlice e start stop
  let text ← slice e.text start stop
  let offsets ← items e.offsets start stop
  return ⟨placeAt text offsets, e.rawOffset stop⟩

def trimmedBounds (e : Excerpt) : Checked (Nat × Nat) := do
  let start ← minus (Text.byteLength e.text) (Text.byteLength (Text.trimBlanksStart e.text))
  return (start, max (Text.byteLength (Text.trimBlanksEnd e.text)) start)

def trim (e : Excerpt) : Checked Excerpt := do
  let bounds ← trimmedBounds e
  excerptSlice e bounds.1 bounds.2

def textBefore (e : Excerpt) (offset : Nat) : Checked Text := do
  sliceTo e.text (← floorBoundary e.text (e.indexAt offset))

@[simp] theorem spanAt_eq (e : Excerpt) (start stop : Nat) :
    spanAt e start stop = .ok (e.spanAt start stop) := by
  unfold spanAt Excerpt.spanAt
  split
  · rfl
  · rename_i h
    have hlast : (e.offsets[stop - 1]?.map (· + 1)).getD e.stop =
        if stop ≤ e.byteLength then e.rawOffset (stop - 1) + 1 else e.stop := by
      rw [Excerpt.offsets, List.getElem?_map]
      split
      · rw [List.getElem?_range (by omega)]
        rfl
      · rw [List.getElem?_eq_none (by rw [List.length_range]; omega)]
        rfl
    rw [minus_eq (by omega), ok_bind, hlast, span_max]

theorem spanAt_part {e : Excerpt} {a b c : List Placed} (h : e.chars = a ++ (b ++ c)) :
    e.spanAt (total Placed.size a) (total Placed.size a + total Placed.size b) =
      (e.part b c).span := by
  rw [Excerpt.spanAt, Excerpt.rawOffset_of_append h]
  rcases List.eq_nil_or_concat b with rfl | ⟨front, last, rfl⟩
  · rw [if_pos (by simp), Excerpt.span]
    simp only [Excerpt.part, Excerpt.start, Excerpt.stop, Placed.stopOr, Placed.startOr_nil,
      List.getLast?_nil, List.nil_append, Nat.max_self, Span.empty]
  · rw [List.concat_eq_append] at h ⊢
    have hpos := last.size_pos
    have hsize : total Placed.size (front ++ [last]) = total Placed.size front + last.size := by simp
    have hle : total Placed.size a + total Placed.size (front ++ [last]) ≤ e.byteLength := by
      rw [Excerpt.byteLength, h]
      simp only [total_append]
      omega
    have hlast : e.rawOffset (total Placed.size a + total Placed.size (front ++ [last]) - 1) + 1 =
        last.stop := by
      have hindex : total Placed.size a + total Placed.size (front ++ [last]) - 1 =
          total Placed.size (a ++ front) + (last.size - 1) := by
        rw [hsize, total_append]
        omega
      rw [hindex, Excerpt.rawOffset, h, List.append_assoc, ← List.append_assoc a front,
        Excerpt.offsetIn_append, List.singleton_append, Excerpt.offsetIn, if_pos (by omega)]
      simp only [Placed.stop]
      omega
    rw [if_neg (by omega), if_pos hle, hlast, Excerpt.span]
    simp only [Excerpt.part, Excerpt.start, Excerpt.stop, Placed.stopOr, List.getLast?_concat]
    cases front <;> rfl

@[simp] theorem fullSpan_eq (e : Excerpt) : fullSpan e = .ok e.span := by
  have hpart := spanAt_part (e := e) (a := []) (b := e.chars) (c := []) (by simp)
  rw [total_nil, Nat.zero_add] at hpart
  rw [fullSpan, spanAt_eq, Excerpt.byteLength, hpart]
  unfold Excerpt.span Excerpt.part Excerpt.start Excerpt.stop
  cases e.chars <;> rfl

theorem placeAt_offsets (chars : List Placed) :
    placeAt (Placed.text chars) (Placed.offsets chars) = chars := by
  induction chars with
  | nil => rfl
  | cons p chars ih =>
      obtain ⟨size, hsize⟩ := Nat.exists_eq_succ_of_ne_zero (Nat.ne_of_gt p.size_pos)
      have hoffsets : Placed.offsets (p :: chars) =
          p.offset :: (List.range' (p.offset + 1) size ++ Placed.offsets chars) := by
        rw [Placed.offsets_cons, hsize, List.range'_succ, List.cons_append]
      have hdrop : (Placed.offsets (p :: chars)).drop p.size = Placed.offsets chars := by
        rw [Placed.offsets_cons]
        exact List.drop_left' (List.length_range')
      rw [Placed.text_cons, hoffsets, placeAt, ← hoffsets]
      exact congrArg (p :: ·) ((congrArg (placeAt (Placed.text chars)) hdrop).trans ih)

theorem length_offsets (chars : List Placed) :
    (Placed.offsets chars).length = total Placed.size chars := by
  induction chars with
  | nil => rfl
  | cons p chars ih => rw [Placed.offsets_cons, List.length_append, List.length_range', ih, total_cons]

/-- Between two characters the text of an excerpt can be cut. -/
theorem slice_text {e : Excerpt} {a b c : List Placed} (h : e.chars = a ++ (b ++ c)) :
    slice e.text (total Placed.size a) (total Placed.size a + total Placed.size b) =
      .ok (Placed.text b) := by
  refine slice_eq (a := Placed.text a) (c := Placed.text c) ?_ (Placed.total_size a) ?_
  · rw [Excerpt.text, h, Placed.text_append, Placed.text_append]
  · rw [Placed.total_size, Placed.total_size]

/-- A search for a character in the text of an excerpt: the character is at the byte behind those in
front of it, or it is not there. -/
theorem search_cases (sought : Char) (chars : List Placed) :
    Text.byteLength ((Placed.text chars).takeWhile fun c => c != sought) =
        total Placed.size (chars.takeWhile fun p => p.char != sought) ∧
      ((Placed.text chars).contains sought = false ∧
          (chars.takeWhile fun p => p.char != sought) = chars ∧
          (chars.dropWhile fun p => p.char != sought) = [] ∨
        ∃ p rest, (Placed.text chars).contains sought = true ∧ p.char = sought ∧
          (chars.dropWhile fun p => p.char != sought) = p :: rest ∧
          chars = (chars.takeWhile fun p => p.char != sought) ++ p :: rest) := by
  have happend := @List.takeWhile_append_dropWhile _ (fun p : Placed => p.char != sought) chars
  have hhead := List.head?_dropWhile_not (fun p : Placed => p.char != sought) chars
  refine ⟨by rw [Placed.total_size, Placed.text_takeWhile fun c => c != sought], ?_⟩
  cases hafter : chars.dropWhile fun p => p.char != sought with
  | nil =>
      rw [hafter, List.append_nil] at happend
      refine .inl ⟨Bool.eq_false_iff.mpr fun hmem => ?_, happend, rfl⟩
      obtain ⟨p, hp, hchar⟩ := List.mem_map.mp (List.contains_iff_mem.mp hmem)
      rw [← happend] at hp
      have hne := List.mem_takeWhile_imp (p := fun p : Placed => p.char != sought) hp
      simp [hchar] at hne
  | cons p rest =>
      rw [hafter] at happend hhead
      have hchar : p.char = sought := by simpa using hhead
      refine .inr ⟨p, rest, ?_, hchar, rfl, happend.symm⟩
      refine List.contains_iff_mem.mpr (List.mem_map.mpr ⟨p, ?_, hchar⟩)
      rw [← happend]
      exact List.mem_append_right _ List.mem_cons_self

theorem excerptSlice_eq {e : Excerpt} {a b c : List Placed} (h : e.chars = a ++ (b ++ c)) :
    excerptSlice e (total Placed.size a) (total Placed.size a + total Placed.size b) =
      .ok (e.part b c) := by
  have hlen : e.byteLength = total Placed.size a + (total Placed.size b + total Placed.size c) := by
    rw [Excerpt.byteLength, h, total_append, total_append]
  have hoffsets : e.offsets = Placed.offsets a ++ (Placed.offsets b ++ Placed.offsets c) := by
    rw [Excerpt.offsets_eq, h, Placed.offsets_append, Placed.offsets_append]
  have hitems : items e.offsets (total Placed.size a) (total Placed.size a + total Placed.size b) =
      .ok (Placed.offsets b) := by
    rw [hoffsets, items_eq (Nat.le_add_right _ _)
      (by simp only [List.length_append, length_offsets]; omega), Nat.add_sub_cancel_left,
      ← length_offsets a, List.drop_left, ← length_offsets b, List.take_left]
  have hitem : ∃ o, stopOfSlice e (total Placed.size a)
      (total Placed.size a + total Placed.size b) = .ok o := by
    unfold stopOfSlice
    split
    · have hlt : total Placed.size a + total Placed.size b - 1 < e.offsets.length := by
        rw [hoffsets]
        simp only [List.length_append, length_offsets]
        omega
      exact ⟨_, by rw [minus_eq (by omega), ok_bind, item_eq (List.getElem?_eq_getElem hlt)]; rfl⟩
    · exact ⟨_, rfl⟩
  obtain ⟨o, hitem⟩ := hitem
  have hstop : e.rawOffset (total Placed.size a + total Placed.size b) = Placed.startOr e.stop c := by
    rw [← total_append]
    exact Excerpt.rawOffset_of_append (by rw [h, List.append_assoc])
  have hle : total Placed.size a + total Placed.size b ≤ e.byteLength := by omega
  simp only [excerptSlice, Nat.min_eq_left hle, Nat.min_eq_left (Nat.le_add_right _ _), hitem,
    slice_text h, hitems, hstop, ok_bind, pure_eq, placeAt_offsets]
  rfl

@[simp] theorem trimmedBounds_eq (e : Excerpt) : trimmedBounds e = .ok e.trimmedBounds := by
  have hblanks : Text.byteLength (e.text.takeWhile isBlank) =
      total Placed.size (Excerpt.leadingBlanks e.chars).1 := by
    rw [Excerpt.text, ← Placed.text_takeWhile, ← Placed.total_size]
    rfl
  rw [trimmedBounds, minus_trimBlanksStart, ok_bind, hblanks]
  rfl

@[simp] theorem trim_eq (e : Excerpt) : trim e = .ok e.trim := by
  obtain ⟨lead, kept, tail, hchars, hbounds, -⟩ := e.exists_trimmedBounds
  rw [trim, trimmedBounds_eq, ok_bind, hbounds, excerptSlice_eq hchars, Excerpt.trim, hbounds,
    Excerpt.slice_eq_part hchars]

@[simp] theorem textBefore_eq (e : Excerpt) (offset : Nat) :
    textBefore e offset = .ok (e.textBefore offset) := by
  rw [textBefore, floorBoundary_eq, ok_bind, Text.floorBoundary]
  exact sliceTo_eq (Text.takeBytes_append_dropBytes _ _).symm rfl

end Checked

end Dockerfile
