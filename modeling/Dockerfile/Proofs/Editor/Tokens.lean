import Mathlib.Algebra.Group.Nat.Defs
import Dockerfile.Proofs.Editor.Candidates
import Dockerfile.Proofs.File.Respelled
import Dockerfile.Proofs.Text.Selection

/-!
# Tokens as an editor reads them

An editor adds up the distances it is sent. It gets back, in the order of the text, the pieces of the
tokens that were selected: for each line a token touches, the characters of the line's content that
it covers (`Analysis.tokens_faithful`).
-/

namespace Dockerfile

/-! ## Relative places -/

namespace LineToken

/-- Whether a token ends before another starts: in an earlier line, or further left in the same. -/
def Precedes (a b : LineToken) : Prop :=
  a.line < b.line ∨ a.line = b.line ∧ a.column + a.length ≤ b.column

/-- Distances between tokens in order add up to the tokens. -/
theorem decode_deltas {line column : Nat} {tokens : List LineToken}
    (hfirst : ∀ t ∈ tokens.head?, line < t.line ∨ line = t.line ∧ column ≤ t.column)
    (hordered : tokens.Pairwise Precedes) :
    TokenDelta.decode line column (deltas line column tokens) = tokens := by
  induction tokens generalizing line column with
  | nil => rfl
  | cons t rest ih =>
      obtain ⟨hnext, hrest⟩ := List.pairwise_cons.mp hordered
      have hstart := hfirst t rfl
      have hread : TokenDelta.decode t.line t.column (deltas t.line t.column rest) = rest := by
        refine ih (fun u hu => ?_) hrest
        have : Precedes t u := hnext u (List.mem_of_mem_head? hu)
        unfold Precedes at this
        omega
      have hline : line + (t.line - line) = t.line := by omega
      by_cases hsame : t.line - line = 0
      · have hcolumn : column + (t.column - column) = t.column := by omega
        simp only [deltas, TokenDelta.decode, if_pos hsame, hline, hcolumn, hread]
      · simp only [deltas, TokenDelta.decode, if_neg hsame, hline, hread]

/-- A distance is not larger than the place it leads to. -/
theorem exists_of_mem_deltas {line column : Nat} {tokens : List LineToken} {d : TokenDelta}
    (h : d ∈ deltas line column tokens) :
    ∃ t ∈ tokens, d.deltaLine ≤ t.line ∧ d.deltaStart ≤ t.column ∧ d.length = t.length := by
  induction tokens generalizing line column with
  | nil => cases h
  | cons t rest ih =>
      rcases List.mem_cons.mp h with rfl | h
      · refine ⟨t, List.mem_cons_self, Nat.sub_le _ _, ?_, rfl⟩
        dsimp only
        split <;> omega
      · obtain ⟨u, hu, hd⟩ := ih h
        exact ⟨u, List.mem_cons_of_mem _ hu, hd⟩

end LineToken

/-! ## Characters of a line -/

namespace Placed

/-- Characters in order fall apart at an offset into those that end at or before it and the rest. -/
theorem eq_filter_append {chars : List Placed} (h : chars.Pairwise fun p q => p.stop ≤ q.offset)
    (offset : Nat) :
    chars = chars.filter (fun p => p.stop ≤ offset) ++ chars.filter fun p => offset < p.stop := by
  induction chars with
  | nil => rfl
  | cons p rest ih =>
      obtain ⟨hp, hrest⟩ := List.pairwise_cons.mp h
      by_cases hstop : p.stop ≤ offset
      · have hnot : ¬offset < p.stop := by omega
        simp only [List.filter_cons, decide_eq_true hstop, decide_eq_false hnot, if_true,
          Bool.false_eq_true, if_false, List.cons_append]
        rw [← ih hrest]
      · have hlater : ∀ q ∈ p :: rest, offset < q.stop := by
          intro q hq
          rcases List.mem_cons.mp hq with rfl | hq
          · omega
          · have := hp q hq
            have := q.offset_lt_stop
            omega
        have hnone : (p :: rest).filter (fun q => q.stop ≤ offset) = [] :=
          List.filter_eq_nil_iff.mpr fun q hq => by
            have := hlater q hq
            simp only [decide_eq_true_eq]
            omega
        have hall : (p :: rest).filter (fun q => offset < q.stop) = p :: rest :=
          List.filter_eq_self.mpr fun q hq => decide_eq_true (hlater q hq)
        rw [hnone, hall, List.nil_append]

end Placed

namespace Text

theorem stop_le_or_le_offset {text : Text} {offset : Nat} (h : isBoundary text offset = true)
    {p : Placed} (hp : p ∈ place 0 text) : p.stop ≤ offset ∨ offset ≤ p.offset := by
  obtain ⟨a, b, rfl, rfl⟩ := isBoundary_iff.mp h
  rw [place_append] at hp
  rcases List.mem_append.mp hp with hp | hp
  · exact .inl (Nat.zero_add (byteLength a) ▸ (offset_of_mem_place hp).2)
  · exact .inr (Nat.zero_add (byteLength a) ▸ (offset_of_mem_place hp).1)

theorem unitLength_append (a b : Text) : unitLength (a ++ b) = unitLength a + unitLength b :=
  total_append unitSize a b

theorem unitLength_pos {text : Text} (h : text ≠ []) : 0 < unitLength text := by
  obtain ⟨c, rest, rfl⟩ := List.exists_cons_of_ne_nil h
  exact Nat.add_pos_left (unitSize_pos c) _

theorem stop_le_of_place {start offset : Nat} {text : Text}
    (h : ∀ p ∈ place start text, p.stop ≤ offset) : start + byteLength text ≤ max start offset := by
  induction text generalizing start with
  | nil => exact Nat.le_max_left _ _
  | cons c rest ih =>
      have hc : start + c.utf8Size ≤ offset := h _ List.mem_cons_self
      have := ih fun p hp => h p (List.mem_cons_of_mem _ hp)
      rw [byteLength_cons]
      omega

theorem le_of_place {start offset : Nat} {text : Text} (hne : text ≠ [])
    (h : ∀ p ∈ place start text, offset ≤ p.offset) : offset ≤ start := by
  cases text with
  | nil => exact absurd rfl hne
  | cons c rest => exact h _ List.mem_cons_self

section Lines

variable {text : Text} {number : Nat} {line : Line}

theorem exists_cut (h : (lines text)[number]? = some line) :
    ∃ front rest before after, Cut text front rest before (line :: after) ∧
      before.length = number := by
  obtain ⟨hlt, -⟩ := List.getElem?_eq_some_iff.mp h
  obtain ⟨front, rest, before, line', after, hcut, hlen⟩ := Cut.exists_of_lt hlt
  rw [hcut.lines_eq, ← hlen, List.getElem?_append_right (Nat.le_refl _), Nat.sub_self] at h
  cases h
  exact ⟨front, rest, before, after, hcut, hlen⟩

theorem place_content_subset (h : (lines text)[number]? = some line) :
    place line.start line.content ⊆ place 0 text := by
  obtain ⟨front, rest, before, after, hcut, -⟩ := exists_cut h
  obtain ⟨rest', hrest, -, -, -⟩ := hcut.exists_next
  rw [hcut.split, hrest, hcut.start_eq, place_append, place_append]
  refine fun p hp => List.mem_append_right _ (List.mem_append_left _ ?_)
  rwa [Nat.zero_add]

theorem le_lineOf_iff (h : (lines text)[number]? = some line) {offset : Nat}
    (hle : offset ≤ byteLength text) : number ≤ lineOf text offset ↔ line.start ≤ offset := by
  obtain ⟨front, rest, before, after, hcut, rfl⟩ := exists_cut h
  exact hcut.le_lineOf_iff hle

theorem stop_lt_start {number' : Nat} {line' : Line} (h : (lines text)[number]? = some line)
    (h' : (lines text)[number']? = some line') (hlt : number < number') : line.stop < line'.start := by
  obtain ⟨hn, rfl⟩ := List.getElem?_eq_some_iff.mp h
  obtain ⟨hn', rfl⟩ := List.getElem?_eq_some_iff.mp h'
  exact List.pairwise_iff_getElem.mp (lined_lines text).pairwise number number' hn hn' hlt

theorem line_eq (h : (lines text)[number]? = some line) : Text.line text number = line := by
  rw [Text.line, h, Option.getD_some]

end Lines

end Text

/-! ## The pieces of a token -/

namespace Token

def pieceOn (text : Text) (t : Token) (number : Nat) : Option LineToken :=
  let line := Text.line text number
  let chars := Text.place line.start line.content
  let before := chars.filter fun p => p.stop ≤ t.span.start
  let covered := chars.filter fun p => t.span.start ≤ p.offset ∧ p.stop ≤ t.span.stop
  if covered = [] then none
  else some ⟨number, Text.unitLength (Placed.text before), Text.unitLength (Placed.text covered),
    t.type, t.modifier⟩

def pieces (text : Text) (t : Token) : List LineToken :=
  (List.range (Text.lines text).length).filterMap (pieceOn text t)

section Pieces

variable {text : Text} {t : Token}

/-- A line's content in three parts: in front of a token, under it, and behind it. -/
theorem exists_parts (h : t.span.WellPlaced text) {number : Nat} {line : Line}
    (hline : (Text.lines text)[number]? = some line) :
    ∃ x y z, line.content = x ++ (y ++ z) ∧
      (Text.place line.start line.content).filter (fun p => p.stop ≤ t.span.start) =
        Text.place line.start x ∧
      (Text.place line.start line.content).filter
          (fun p => t.span.start ≤ p.offset ∧ p.stop ≤ t.span.stop) =
        Text.place (line.start + Text.byteLength x) y ∧
      ∀ p ∈ Text.place (line.start + Text.byteLength x + Text.byteLength y) z,
        t.span.stop ≤ p.offset := by
  have hsub := Text.place_content_subset hline
  have hordered := Text.pairwise_place line.start line.content
  have hfront := Placed.eq_filter_append hordered t.span.start
  have hbehind := hordered.sublist
    (List.filter_sublist : (List.filter (fun p => t.span.start < p.stop) _).Sublist _)
  have hback := Placed.eq_filter_append hbehind t.span.stop
  obtain ⟨hr, hx, hplace⟩ := Text.split_of_place_eq hfront
  rw [hplace] at hback
  obtain ⟨hsplit, hy, hz⟩ := Text.split_of_place_eq hback
  refine ⟨_, _, _, hsplit ▸ hr, hx, ?_, ?_⟩
  · rw [← hy, ← hplace, List.filter_filter]
    refine List.filter_congr fun p hp => ?_
    have := Text.stop_le_or_le_offset h.start_boundary (hsub hp)
    have := p.offset_lt_stop
    rw [Bool.eq_iff_iff]
    simp only [decide_eq_true_eq, Bool.and_eq_true]
    omega
  · intro p hp
    rw [← hz, ← hplace] at hp
    obtain ⟨hp, hstop⟩ := List.mem_filter.mp hp
    have := Text.stop_le_or_le_offset h.stop_boundary (hsub (List.mem_filter.mp hp).1)
    have := of_decide_eq_true hstop
    omega

/-- The cuts of `exists_parts` are the ends of the token, moved into the line. -/
theorem exists_cuts (h : t.span.WellPlaced text) {number : Nat} {line : Line}
    (hline : (Text.lines text)[number]? = some line) :
    ∃ x y z, line.content = x ++ (y ++ z) ∧
      (Text.place line.start line.content).filter (fun p => p.stop ≤ t.span.start) =
        Text.place line.start x ∧
      (Text.place line.start line.content).filter
          (fun p => t.span.start ≤ p.offset ∧ p.stop ≤ t.span.stop) =
        Text.place (line.start + Text.byteLength x) y ∧
      (y = [] → min t.span.stop line.stop ≤ max t.span.start line.start) ∧
      (y ≠ [] → max t.span.start line.start = line.start + Text.byteLength x ∧
        min t.span.stop line.stop = line.start + Text.byteLength (x ++ y) ∧
        0 < Text.byteLength y) := by
  obtain ⟨x, y, z, hcontent, hx, hy, hz⟩ := exists_parts h hline
  have hfront : line.start + Text.byteLength x ≤ max line.start t.span.start :=
    Text.stop_le_of_place fun p hp => by
      rw [← hx] at hp
      exact of_decide_eq_true (List.mem_filter.mp hp).2
  have hcovered : ∀ p ∈ Text.place (line.start + Text.byteLength x) y,
      t.span.start ≤ p.offset ∧ p.stop ≤ t.span.stop := fun p hp => by
    rw [← hy] at hp
    exact of_decide_eq_true (List.mem_filter.mp hp).2
  have hupto := Text.stop_le_of_place fun p hp => (hcovered p hp).2
  have hstop : line.stop = line.start + Text.byteLength x + Text.byteLength y +
      Text.byteLength z := by
    simp only [Line.stop, hcontent, Text.byteLength_append, Nat.add_assoc]
  have hbehind : min t.span.stop line.stop ≤
      line.start + Text.byteLength x + Text.byteLength y := by
    by_cases hz' : z = []
    · rw [hz', Text.byteLength_nil] at hstop
      omega
    · have := Text.le_of_place hz' hz
      omega
  refine ⟨x, y, z, hcontent, hx, hy, fun hnil => ?_, fun hne => ?_⟩
  · rw [hnil, Text.byteLength_nil] at hbehind
    omega
  · have hstart := Text.le_of_place hne fun p hp => (hcovered p hp).1
    have hpos := Text.byteLength_pos_of_ne_nil hne
    rw [Text.byteLength_append]
    omega

/-- The piece in a line is what lies between the columns of the two ends. -/
theorem onLine_eq_pieceOn (h : t.span.WellPlaced text) {number : Nat}
    (hnumber : number < (Text.lines text).length) : onLine text t number = pieceOn text t number := by
  obtain ⟨line, hline⟩ : ∃ line, (Text.lines text)[number]? = some line :=
    ⟨_, List.getElem?_eq_getElem hnumber⟩
  obtain ⟨x, y, z, hcontent, hx, hy, hnone, hsome⟩ := exists_cuts h hline
  simp only [onLine, pieceOn, Text.line_eq hline, hx, hy, Text.text_place, Line.span]
  cases y with
  | nil => rw [if_pos (hnone rfl), if_pos (Text.place_nil _)]
  | cons c y =>
      obtain ⟨hstart, hstop, hpos⟩ := hsome (List.cons_ne_nil _ _)
      have hfirst := (Text.position_in_line hline (hcontent ▸ List.prefix_append x _)).2
      have hlast := (Text.position_in_line hline (a := x ++ c :: y)
        (by rw [hcontent, ← List.append_assoc]; exact List.prefix_append _ z)).2
      have hunits := Text.unitLength_pos (List.cons_ne_nil c y)
      have hlength : Text.unitLength (x ++ c :: y) - Text.unitLength x = Text.unitLength (c :: y) := by
        rw [Text.unitLength_append]
        omega
      rw [hstart, hstop, hfirst, hlast, if_neg (by rw [Text.byteLength_append]; omega)]
      simp only [hlength, if_neg (Nat.ne_of_gt hunits), Text.place_cons, reduceCtorEq, if_false]

theorem exists_covered {number : Nat} {line : Line} (hline : (Text.lines text)[number]? = some line)
    {piece : LineToken} (h : pieceOn text t number = some piece) :
    ∃ p ∈ Text.place line.start line.content, t.span.start ≤ p.offset ∧ p.stop ≤ t.span.stop ∧
      line.start ≤ p.offset ∧ p.stop ≤ line.stop := by
  simp only [pieceOn, Text.line_eq hline] at h
  split at h
  · cases h
  · rename_i hne
    obtain ⟨p, hp⟩ := List.exists_mem_of_ne_nil _ hne
    obtain ⟨hp, hcovered⟩ := List.mem_filter.mp hp
    exact ⟨p, hp, (of_decide_eq_true hcovered).1, (of_decide_eq_true hcovered).2,
      Text.offset_of_mem_place hp⟩

theorem lines_of_piece (h : t.span.WellPlaced text) {number : Nat} {line : Line}
    (hline : (Text.lines text)[number]? = some line) {piece : LineToken}
    (hpiece : pieceOn text t number = some piece) :
    Text.lineOf text t.span.start ≤ number ∧ number ≤ Text.lineOf text t.span.stop := by
  obtain ⟨p, -, hstart, hstop, hp, hp'⟩ := exists_covered hline hpiece
  have := p.offset_lt_stop
  have := h.bounded
  have := h.ordered
  refine ⟨?_, (Text.le_lineOf_iff hline h.bounded).mpr (by omega)⟩
  rcases Nat.lt_or_ge number (Text.lineOf text t.span.start) with hlt | hge
  · have hfirst := List.getElem?_eq_getElem (Text.lineOf_lt text t.span.start)
    have := Text.stop_lt_start hline hfirst hlt
    have := (Text.le_lineOf_iff hfirst (by omega)).mp (Nat.le_refl _)
    omega
  · exact hge

theorem cut_eq_pieces (h : t.span.WellPlaced text) : cut text t = pieces text t := by
  have hfirst : Text.lineOf text t.span.start ≤ Text.lineOf text t.span.stop :=
    Text.lineOf_mono text h.ordered
  have hlast := Text.lineOf_lt text t.span.stop
  generalize hf : Text.lineOf text t.span.start = first at hfirst
  generalize hl : Text.lineOf text t.span.stop = last at hfirst hlast
  have honly : ∀ number < (Text.lines text).length, ∀ piece,
      pieceOn text t number = some piece → first ≤ number ∧ number ≤ last := by
    intro number hnumber piece hpiece
    have := lines_of_piece h (List.getElem?_eq_getElem hnumber) hpiece
    rwa [hf, hl] at this
  have hsplit : List.range (Text.lines text).length = List.range' 0 first ++
      (List.range' first (last + 1 - first) ++
        List.range' (last + 1) ((Text.lines text).length - (last + 1))) := by
    rw [List.range_eq_range']
    have hback := @List.range'_append_1 first (last + 1 - first) ((Text.lines text).length - (last + 1))
    have hall := @List.range'_append_1 0 first ((Text.lines text).length - first)
    rw [Nat.zero_add] at hall
    rw [show first + (last + 1 - first) = last + 1 by omega,
      show last + 1 - first + ((Text.lines text).length - (last + 1)) =
        (Text.lines text).length - first by omega] at hback
    rw [hback, hall]
    congr 1
    omega
  have hnone : ∀ numbers : List Nat, (∀ n ∈ numbers, n < (Text.lines text).length ∧
      ¬(first ≤ n ∧ n ≤ last)) → numbers.filterMap (pieceOn text t) = [] := fun numbers hn =>
    List.filterMap_eq_nil_iff.mpr fun n hmem => by
      obtain ⟨hlt, hout⟩ := hn n hmem
      exact Option.eq_none_iff_forall_ne_some.mpr fun piece hpiece => hout (honly n hlt piece hpiece)
  rw [cut, pieces, hf, hl, hsplit, List.filterMap_append, List.filterMap_append,
    hnone (List.range' 0 first), hnone (List.range' (last + 1) _), List.nil_append, List.append_nil]
  · refine List.filterMap_congr fun n hn => onLine_eq_pieceOn h ?_
    have := List.mem_range'_1.mp hn
    omega
  · intro n hn
    have := List.mem_range'_1.mp hn
    omega
  · intro n hn
    have := List.mem_range'_1.mp hn
    omega

/-- A piece is a part of the line's content, cut at the ends of the token. -/
theorem exists_piece (h : t.span.WellPlaced text) {number : Nat} {line : Line}
    (hline : (Text.lines text)[number]? = some line) {piece : LineToken}
    (hpiece : pieceOn text t number = some piece) :
    ∃ x y z, line.content = x ++ (y ++ z) ∧ 0 < Text.unitLength y ∧
      piece = ⟨number, Text.unitLength x, Text.unitLength y, t.type, t.modifier⟩ ∧
      t.span.start ≤ line.start + Text.byteLength x ∧
      line.start + Text.byteLength (x ++ y) ≤ t.span.stop := by
  obtain ⟨x, y, z, hcontent, hx, hy, -, hsome⟩ := exists_cuts h hline
  simp only [pieceOn, Text.line_eq hline, hx, hy, Text.text_place] at hpiece
  cases y with
  | nil => simp only [Text.place_nil, if_true, reduceCtorEq] at hpiece
  | cons c y =>
      obtain ⟨hstart, hstop, -⟩ := hsome (List.cons_ne_nil _ _)
      simp only [Text.place_cons, reduceCtorEq, if_false, Option.some.injEq] at hpiece
      exact ⟨x, c :: y, z, hcontent, Text.unitLength_pos (List.cons_ne_nil _ _), hpiece.symm,
        by omega, by omega⟩

theorem piece_precedes {t' : Token} (h : t.span.WellPlaced text) (h' : t'.span.WellPlaced text)
    (hle : t.span.stop ≤ t'.span.start) {number number' : Nat}
    (hnumber : number < (Text.lines text).length) (hnumber' : number' < (Text.lines text).length)
    {a b : LineToken} (ha : pieceOn text t number = some a) (hb : pieceOn text t' number' = some b) :
    a.Precedes b := by
  have hline := List.getElem?_eq_getElem hnumber
  have hline' := List.getElem?_eq_getElem hnumber'
  obtain ⟨x, y, z, hcontent, -, rfl, -, hstop⟩ := exists_piece h hline ha
  obtain ⟨x', y', z', hcontent', -, rfl, hstart, -⟩ := exists_piece h' hline' hb
  rcases Nat.lt_trichotomy number number' with hlt | rfl | hgt
  · exact .inl hlt
  · -- Both pieces are cut from one content, so the front of the later one holds the earlier one.
    refine .inr ⟨rfl, ?_⟩
    have hfront : x ++ y <+: (Text.lines text)[number].content := by
      rw [hcontent, ← List.append_assoc]
      exact List.prefix_append _ z
    have hfront' : x' <+: (Text.lines text)[number].content := by
      rw [hcontent']
      exact List.prefix_append _ _
    have hpart := Text.prefix_of_byteLength_le hfront hfront' (by omega)
    rw [← Text.unitLength_append]
    exact Text.total_le_of_prefix unitSize hpart
  · obtain ⟨p, -, -, hp, hp', -⟩ := exists_covered hline ha
    obtain ⟨q, -, hq, -, -, hq'⟩ := exists_covered hline' hb
    have := Text.stop_lt_start hline' hline hgt
    have := p.offset_lt_stop
    have := q.offset_lt_stop
    omega

theorem exists_of_mem_pieces {piece : LineToken} (h : piece ∈ pieces text t) :
    ∃ number, number < (Text.lines text).length ∧ pieceOn text t number = some piece := by
  obtain ⟨number, hnumber, hpiece⟩ := List.mem_filterMap.mp h
  exact ⟨number, List.mem_range.mp hnumber, hpiece⟩

theorem pieces_ordered (h : t.span.WellPlaced text) :
    (pieces text t).Pairwise LineToken.Precedes := by
  refine List.pairwise_filterMap.mpr (List.pairwise_lt_range.imp_of_mem ?_)
  intro number number' hnumber hnumber' hlt a ha b hb
  obtain ⟨-, -, -, -, -, rfl, -⟩ :=
    exists_piece h (List.getElem?_eq_getElem (List.mem_range.mp hnumber)) ha
  obtain ⟨-, -, -, -, -, rfl, -⟩ :=
    exists_piece h (List.getElem?_eq_getElem (List.mem_range.mp hnumber')) hb
  exact .inl hlt

end Pieces

/-! ## What is selected -/

/-- What is kept of candidates that come in order of importance. -/
structure Selection (candidates kept : List Token) : Prop where
  mem : kept ⊆ candidates
  nonempty : ∀ t ∈ kept, t.span.start < t.span.stop
  ordered : kept.Pairwise fun s t => s.span.stop ≤ t.span.start
  /-- A candidate is left out only if it is empty or overlaps a more important one that is kept. -/
  complete : ∀ before t after, candidates = before ++ t :: after →
    t ∈ kept ∨ t.span.isEmpty = true ∨
      ∃ k ∈ kept, k ∈ before ∧ overlaps t.span k.span = true

theorem select_append (kept a b : List Token) :
    select kept (a ++ b) = select (select kept a) b := by
  induction a generalizing kept with
  | nil => rfl
  | cons t a ih =>
      simp only [List.cons_append, select]
      split <;> exact ih _

theorem prefix_select (kept tokens : List Token) : kept <+: select kept tokens := by
  induction tokens generalizing kept with
  | nil => exact List.prefix_rfl
  | cons t tokens ih =>
      simp only [select]
      split
      · exact ih _
      · exact (List.prefix_append _ _).trans (ih _)

theorem mem_of_mem_select {kept tokens : List Token} {t : Token} (h : t ∈ select kept tokens) :
    t ∈ kept ∨ t ∈ tokens := by
  induction tokens generalizing kept with
  | nil => exact .inl h
  | cons u tokens ih =>
      simp only [select] at h
      split at h
      · exact (ih h).imp_right (List.mem_cons_of_mem _)
      · rcases ih h with h | h
        · rcases List.mem_append.mp h with h | h
          · exact .inl h
          · exact .inr (List.mem_singleton.mp h ▸ List.mem_cons_self)
        · exact .inr (List.mem_cons_of_mem _ h)

/-- Whether two tokens have bytes, and none of them in common. -/
def Apart (s t : Token) : Prop :=
  s.span.isEmpty = false ∧ t.span.isEmpty = false ∧ overlaps s.span t.span = false

theorem Apart.symm {s t : Token} (h : s.Apart t) : t.Apart s := by
  obtain ⟨hs, ht, hover⟩ := h
  refine ⟨ht, hs, ?_⟩
  simpa only [overlaps, Bool.and_comm] using hover

/-- One more candidate is looked at: what is kept stays apart. -/
theorem select_apart {kept tokens : List Token} (hne : ∀ t ∈ kept, t.span.isEmpty = false)
    (h : kept.Pairwise Apart) :
    (∀ t ∈ select kept tokens, t.span.isEmpty = false) ∧ (select kept tokens).Pairwise Apart := by
  induction tokens generalizing kept with
  | nil => exact ⟨hne, h⟩
  | cons t tokens ih =>
      simp only [select]
      split
      · exact ih hne h
      · rename_i hfree
        simp only [Bool.or_eq_true, not_or, Bool.not_eq_true, List.any_eq_false] at hfree
        obtain ⟨ht, hfree⟩ := hfree
        refine ih ?_ (List.pairwise_append.mpr ⟨h, List.pairwise_singleton _ _, ?_⟩)
        · intro u hu
          rcases List.mem_append.mp hu with hu | hu
          · exact hne u hu
          · exact List.mem_singleton.mp hu ▸ ht
        · intro k hk u hu
          rw [List.mem_singleton.mp hu]
          exact Apart.symm ⟨ht, hne k hk, hfree k hk⟩

theorem select_complete (before : List Token) (t : Token) (after : List Token) :
    t ∈ select [] (before ++ t :: after) ∨ t.span.isEmpty = true ∨
      ∃ k ∈ select [] (before ++ t :: after), k ∈ before ∧ overlaps t.span k.span = true := by
  rw [select_append]
  simp only [select]
  split
  · rename_i hleft
    rcases Bool.or_eq_true_iff.mp hleft with hempty | hover
    · exact .inr (.inl hempty)
    · obtain ⟨k, hk, hover⟩ := List.any_eq_true.mp hover
      have hbefore := (mem_of_mem_select hk).resolve_left List.not_mem_nil
      exact .inr (.inr ⟨k, (prefix_select _ after).subset hk, hbefore, hover⟩)
  · exact .inl ((prefix_select _ after).subset
      (List.mem_append_right _ (List.mem_singleton.mpr rfl)))

/-- What is selected of well-placed candidates, in the order of the text. -/
theorem selection_of_select {text : Text} {candidates : List Token} (h : Within text candidates) :
    Selection candidates ((select [] candidates).mergeSort fun s t => s.span.start ≤ t.span.start) := by
  have hperm := List.mergeSort_perm (select [] candidates)
    fun s t => decide (s.span.start ≤ t.span.start)
  obtain ⟨hne, hapart⟩ := @select_apart [] candidates (by simp) .nil
  have hmem : ∀ t ∈ select [] candidates, t ∈ candidates := fun t ht =>
    (mem_of_mem_select ht).resolve_left List.not_mem_nil
  have hpos : ∀ t ∈ select [] candidates, t.span.start < t.span.stop := by
    intro t ht
    have := (h t (hmem t ht)).ordered
    have := hne t ht
    simp only [Span.isEmpty, beq_eq_false_iff_ne] at this
    omega
  refine ⟨fun t ht => hmem t (hperm.mem_iff.mp ht), fun t ht => hpos t (hperm.mem_iff.mp ht), ?_, ?_⟩
  · have hsorted := @List.pairwise_mergeSort Token
      (fun s t => decide (s.span.start ≤ t.span.start))
      (fun a b c hab hbc => by simp only [decide_eq_true_eq] at *; omega)
      (fun a b => by simp only [Bool.or_eq_true, decide_eq_true_eq]; omega) (select [] candidates)
    have hapart' := (hperm.pairwise_iff fun h => Apart.symm h).mpr hapart
    refine (hsorted.and hapart').imp_of_mem fun {s t} hs ht hst => ?_
    obtain ⟨hle, -, -, hover⟩ := hst
    have := hpos t (hperm.mem_iff.mp ht)
    have := of_decide_eq_true hle
    simp only [overlaps, Bool.and_eq_false_iff, decide_eq_false_iff_not] at hover
    omega
  · rintro before t after rfl
    rcases select_complete before t after with ht | ht | ⟨k, hk, hbefore, hover⟩
    · exact .inl (hperm.mem_iff.mpr ht)
    · exact .inr (.inl ht)
    · exact .inr (.inr ⟨k, hperm.mem_iff.mpr hk, hbefore, hover⟩)

end Token

/-! ## What an editor reads -/

/-- The tokens sent to an editor say what was selected. -/
structure Token.Faithful (text : Text) (kept : List Token) (sent : List TokenDelta) : Prop where
  decoded : TokenDelta.decode 0 0 sent = kept.flatMap (Token.pieces text)
  positive : ∀ x ∈ TokenDelta.decode 0 0 sent, 0 < x.length
  inside : ∀ x ∈ TokenDelta.decode 0 0 sent, ∃ line, (Text.lines text)[x.line]? = some line ∧
    x.column + x.length ≤ Text.unitLength line.content
  increasing : (TokenDelta.decode 0 0 sent).Pairwise fun a b =>
    Position.before ⟨a.line, a.column⟩ ⟨b.line, b.column⟩ = true
  disjoint : (TokenDelta.decode 0 0 sent).Pairwise fun a b =>
    a.line = b.line → a.column + a.length ≤ b.column
  /-- All numbers fit in 32 bits. -/
  small : ∀ d ∈ sent, d.deltaLine < 2 ^ 32 ∧ d.deltaStart < 2 ^ 32 ∧ d.length < 2 ^ 32

namespace Token

section Reading

variable {text : Text} {kept : List Token}

theorem inside_of_mem_pieces {t : Token} (h : t.span.WellPlaced text) {piece : LineToken}
    (hpiece : piece ∈ pieces text t) :
    0 < piece.length ∧ ∃ line, (Text.lines text)[piece.line]? = some line ∧
      piece.column + piece.length ≤ Text.unitLength line.content := by
  obtain ⟨number, hnumber, hpiece⟩ := exists_of_mem_pieces hpiece
  have hline := List.getElem?_eq_getElem hnumber
  obtain ⟨x, y, z, hcontent, hpos, rfl, -⟩ := exists_piece h hline hpiece
  refine ⟨hpos, _, hline, ?_⟩
  rw [hcontent, Text.unitLength_append, Text.unitLength_append]
  dsimp only
  omega

theorem flatMap_pieces_ordered (h : Within text kept)
    (hordered : kept.Pairwise fun s t => s.span.stop ≤ t.span.start) :
    (kept.flatMap (pieces text)).Pairwise LineToken.Precedes := by
  refine List.pairwise_flatMap.mpr ⟨fun t ht => pieces_ordered (h t ht), ?_⟩
  refine hordered.imp_of_mem fun hs ht hle a ha b hb => ?_
  obtain ⟨number, hnumber, ha⟩ := exists_of_mem_pieces ha
  obtain ⟨number', hnumber', hb⟩ := exists_of_mem_pieces hb
  exact piece_precedes (h _ hs) (h _ ht) hle hnumber hnumber' ha hb

/-- Tokens in order, cut and sent, are read as their pieces. -/
theorem faithful_of_ordered (hsize : Text.byteLength text < 2 ^ 32) (h : Within text kept)
    (hordered : kept.Pairwise fun s t => s.span.stop ≤ t.span.start) :
    Faithful text kept (LineToken.deltas 0 0 (kept.flatMap (cut text))) := by
  have hcut : kept.flatMap (cut text) = kept.flatMap (pieces text) :=
    List.flatMap_congr fun t ht => cut_eq_pieces (h t ht)
  have hpieces := flatMap_pieces_ordered h hordered
  have hinside : ∀ x ∈ kept.flatMap (pieces text), 0 < x.length ∧
      ∃ line, (Text.lines text)[x.line]? = some line ∧
        x.column + x.length ≤ Text.unitLength line.content := by
    intro x hx
    obtain ⟨t, ht, hx⟩ := List.mem_flatMap.mp hx
    exact inside_of_mem_pieces (h t ht) hx
  have hdecoded : TokenDelta.decode 0 0 (LineToken.deltas 0 0 (kept.flatMap (cut text))) =
      kept.flatMap (pieces text) := by
    rw [hcut]
    refine LineToken.decode_deltas (fun t _ => ?_) hpieces
    omega
  refine ⟨hdecoded, ?_, ?_, ?_, ?_, ?_⟩
  · rw [hdecoded]
    exact fun x hx => (hinside x hx).1
  · rw [hdecoded]
    exact fun x hx => (hinside x hx).2
  · rw [hdecoded]
    refine hpieces.imp_of_mem fun {a b} ha _ hab => ?_
    have := (hinside a ha).1
    simp only [Position.before, Bool.or_eq_true, Bool.and_eq_true, decide_eq_true_eq, beq_iff_eq]
    unfold LineToken.Precedes at hab
    omega
  · rw [hdecoded]
    refine hpieces.imp fun {a b} hab hline => ?_
    unfold LineToken.Precedes at hab
    omega
  · intro d hd
    rw [hcut] at hd
    obtain ⟨x, hx, hline, hstart, hlength⟩ := LineToken.exists_of_mem_deltas hd
    obtain ⟨-, line, hget, hfits⟩ := hinside x hx
    obtain ⟨hlt, -⟩ := List.getElem?_eq_some_iff.mp hget
    have := (lined_lines text).length_le
    have := Text.unitLength_le line.content
    have := Text.byteLength_content_le (List.mem_of_getElem? hget)
    omega

end Reading

end Token

/-- An editor reads the pieces of what was selected, and that is all the candidates but the empty ones
and those that overlap a more important one. -/
theorem Analysis.tokens_faithful (text : Text) (settings : Settings)
    (hsize : Text.byteLength text < 2 ^ 32) :
    Token.Selection (Token.candidates (analyze text settings))
        (Token.selected (analyze text settings)) ∧
      Token.Faithful text (Token.selected (analyze text settings))
        (analyze text settings).tokens := by
  have hwithin := Token.candidates_within text settings
  have hselection := Token.selection_of_select hwithin
  exact ⟨hselection, Token.faithful_of_ordered hsize (fun t ht => hwithin t (hselection.mem ht))
    hselection.ordered⟩

/-- A quoted part over two lines is sent as two tokens. -/
theorem Analysis.tokens_faithful_quoted :
    let text := "ENV a=\"b \\\n c\"".toList
    Text.byteLength text < 2 ^ 32 ∧
      Token.Selection (Token.candidates (analyze text {})) (Token.selected (analyze text {})) ∧
      Token.Faithful text (Token.selected (analyze text {})) (analyze text {}).tokens ∧
      (Token.select [] (Token.candidates (analyze text {}))).flatMap (Token.pieces text) =
        [⟨0, 0, 3, .keyword, .none⟩, ⟨0, 4, 1, .var, .declaration⟩, ⟨0, 6, 4, .string, .none⟩,
          ⟨1, 0, 3, .string, .none⟩] :=
  ⟨by decide, (Analysis.tokens_faithful _ {} (by decide)).1,
    (Analysis.tokens_faithful _ {} (by decide)).2, by decide +kernel⟩

end Dockerfile
