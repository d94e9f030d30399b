import Mathlib.Data.List.Nodup
import Dockerfile.Analysis
import Dockerfile.Editor.Folding
import Dockerfile.Proofs.File.SourceMap
import Dockerfile.Proofs.Text.RoundTrip

/-!
# What is folded

The runs among numbers in order are exactly the maximal ones (`Fold.mem_runs`): a run that is reached
grows by the next number, or ends there for good. With the lines on which comments start for these
numbers, the folds of a file are its runs of comment lines and its instructions of several lines, each
once (`Analysis.folds_exact`).
-/

namespace Dockerfile

namespace Fold

/-! ## Runs -/

/-- The numbers from `first` to `last` are marked, and those next to them are not. -/
structure IsRun (marked : Nat → Prop) (first last : Nat) : Prop where
  ordered : first ≤ last
  inside : ∀ n, first ≤ n → n ≤ last → marked n
  front : ∀ n, n + 1 = first → ¬ marked n
  behind : ¬ marked (last + 1)

theorem isRun_congr {marked marked' : Nat → Prop} (h : ∀ n, marked n ↔ marked' n) {a b : Nat} :
    IsRun marked a b ↔ IsRun marked' a b := by
  rw [funext fun n => propext (h n)]

/-- A run that later numbers do not touch stays a run, and they have the same runs without it. -/
theorem isRun_or {marked : Nat → Prop} {first last a b : Nat} (hle : first ≤ last)
    (hlater : ∀ n, marked n → last + 1 < n) :
    IsRun (fun n => (first ≤ n ∧ n ≤ last) ∨ marked n) a b ↔
      (a = first ∧ b = last) ∨ IsRun marked a b := by
  constructor
  · intro h
    have hordered := h.ordered
    rcases h.inside a (Nat.le_refl a) hordered with ⟨hfirst, hlast⟩ | hmarked
    · have hfront : ¬ first < a := by
        intro hlt
        exact h.front (a - 1) (by omega) (.inl (by omega))
      have hbehind : ¬ b < last := by
        intro hlt
        exact h.behind (.inl (by omega))
      have hstop : ¬ last < b := by
        intro hlt
        rcases h.inside (last + 1) (by omega) hlt with hnext | hnext
        · omega
        · have := hlater _ hnext
          omega
      exact .inl (by omega)
    · have hfar := hlater a hmarked
      refine .inr ⟨hordered, ?_, fun n hn hm => h.front n hn (.inr hm), fun hm => h.behind (.inr hm)⟩
      intro n hfirst hlast
      rcases h.inside n hfirst hlast with hn | hn
      · omega
      · exact hn
  · intro h
    rcases h with ⟨rfl, rfl⟩ | h
    · refine ⟨hle, fun n hfirst hlast => .inl ⟨hfirst, hlast⟩, ?_, ?_⟩
      · intro n hn hmarked
        rcases hmarked with hmarked | hmarked
        · omega
        · have := hlater n hmarked
          omega
      · intro hmarked
        rcases hmarked with hmarked | hmarked
        · omega
        · have := hlater _ hmarked
          omega
    · have hfar := hlater a (h.inside a (Nat.le_refl a) h.ordered)
      have hordered := h.ordered
      refine ⟨hordered, fun n hfirst hlast => .inr (h.inside n hfirst hlast), ?_, ?_⟩
      · intro n hn hmarked
        rcases hmarked with hmarked | hmarked
        · omega
        · exact h.front n hn hmarked
      · intro hmarked
        rcases hmarked with hmarked | hmarked
        · omega
        · exact h.behind hmarked

theorem not_isRun_nil {a b : Nat} : ¬ IsRun (fun n => n ∈ ([] : List Nat)) a b := by
  intro h
  cases h.inside a (Nat.le_refl a) h.ordered

/-- A number that the run has reached, or that comes next, is its new end. -/
theorem runsFrom_joined {first last n : Nat} (hle : last ≤ n) (hnext : n ≤ last + 1)
    (rest : List Nat) : runsFrom first last (n :: rest) = runsFrom first n rest := by
  rw [runsFrom]
  by_cases hsame : n = last
  · rw [if_pos hsame, hsame]
  · rw [if_neg hsame, if_pos (by omega)]

/-- A later number starts a run of its own. -/
theorem runsFrom_apart {first last n : Nat} (hlater : last + 1 < n) (rest : List Nat) :
    runsFrom first last (n :: rest) = (first, last) :: runsFrom n n rest := by
  rw [runsFrom, if_neg (by omega), if_neg (by omega)]

theorem mem_runsFrom {first last : Nat} {rest : List Nat} (hle : first ≤ last)
    (hsorted : (last :: rest).Pairwise (· ≤ ·)) (r : Nat × Nat) :
    r ∈ runsFrom first last rest ↔
      IsRun (fun n => (first ≤ n ∧ n ≤ last) ∨ n ∈ rest) r.1 r.2 := by
  induction rest generalizing first last with
  | nil =>
      rw [isRun_or hle (by simp), runsFrom, List.mem_singleton, Prod.ext_iff]
      exact ⟨.inl, fun h => h.resolve_right not_isRun_nil⟩
  | cons n rest ih =>
      obtain ⟨hlast, hrest⟩ := List.pairwise_cons.mp hsorted
      have hn := hlast n List.mem_cons_self
      by_cases hnext : n ≤ last + 1
      · rw [runsFrom_joined hn hnext, ih (by omega) hrest]
        refine isRun_congr fun m => ?_
        rw [List.mem_cons]
        by_cases hm : m ∈ rest
        · simp [hm]
        · simp only [hm, or_false]
          omega
      · have hlater : ∀ m, m ∈ n :: rest → last + 1 < m := by
          intro m hm
          rcases List.mem_cons.mp hm with rfl | hm
          · omega
          · have := (List.pairwise_cons.mp hrest).1 m hm
            omega
        rw [runsFrom_apart (by omega), isRun_or hle hlater, List.mem_cons, Prod.ext_iff,
          ih (Nat.le_refl n) hrest]
        refine or_congr_right (isRun_congr fun m => ?_)
        rw [List.mem_cons, Nat.le_antisymm_iff, and_comm]

/-- The runs among numbers in order are the maximal ones. -/
theorem mem_runs {ns : List Nat} (hsorted : ns.Pairwise (· ≤ ·)) (r : Nat × Nat) :
    r ∈ runs ns ↔ IsRun (fun n => n ∈ ns) r.1 r.2 := by
  cases ns with
  | nil => exact ⟨fun h => absurd h List.not_mem_nil, fun h => absurd h not_isRun_nil⟩
  | cons n rest =>
      rw [runs, mem_runsFrom (Nat.le_refl n) hsorted]
      refine isRun_congr fun m => ?_
      rw [List.mem_cons, Nat.le_antisymm_iff, and_comm]

/-- A number that comes twice is in one run, and a number alone is a run. -/
example : runs [0, 1, 1, 3, 4, 5, 7] = [(0, 1), (3, 5), (7, 7)] := by decide

theorem runsFrom_pairwise {first last : Nat} {rest : List Nat} (hle : first ≤ last)
    (hsorted : (last :: rest).Pairwise (· ≤ ·)) :
    (runsFrom first last rest).Pairwise fun r s => r.1 < s.1 := by
  induction rest generalizing first last with
  | nil => exact List.pairwise_singleton _ _
  | cons n rest ih =>
      obtain ⟨hlast, hrest⟩ := List.pairwise_cons.mp hsorted
      have hn := hlast n List.mem_cons_self
      by_cases hnext : n ≤ last + 1
      · rw [runsFrom_joined hn hnext]
        exact ih (by omega) hrest
      rw [runsFrom_apart (by omega)]
      refine .cons ?_ (ih (Nat.le_refl n) hrest)
      intro r hr
      have hrun := (mem_runsFrom (Nat.le_refl n) hrest r).mp hr
      rcases hrun.inside r.1 (Nat.le_refl _) hrun.ordered with hr | hr
      · omega
      · have := (List.pairwise_cons.mp hrest).1 r.1 hr
        omega

theorem runs_pairwise {ns : List Nat} (hsorted : ns.Pairwise (· ≤ ·)) :
    (runs ns).Pairwise fun r s => r.1 < s.1 := by
  cases ns with
  | nil => exact .nil
  | cons n rest => exact runsFrom_pairwise (Nat.le_refl n) hsorted

/-! ## Comments -/

/-- Sorted by a number, the elements are in the order of their numbers. -/
theorem pairwise_mergeSort_key {α : Type} (key : α → Nat) (l : List α) :
    (l.mergeSort fun a b => key a ≤ key b).Pairwise fun a b => key a ≤ key b := by
  have hsorted := @List.pairwise_mergeSort _ (fun a b : α => decide (key a ≤ key b))
    (by simp only [decide_eq_true_eq]; omega)
    (by simp only [Bool.or_eq_true, decide_eq_true_eq]; omega) l
  exact hsorted.imp of_decide_eq_true

section Comments

variable (text : Text) (comments : List Comment)

def commentLines : List Nat :=
  (comments.map fun c => Text.lineOf text c.span.start).mergeSort fun a b => a ≤ b

theorem mem_commentLines {n : Nat} :
    n ∈ commentLines text comments ↔ ∃ c ∈ comments, Text.lineOf text c.span.start = n := by
  rw [commentLines, List.mem_mergeSort, List.mem_map]

theorem commentLines_sorted : (commentLines text comments).Pairwise (· ≤ ·) :=
  pairwise_mergeSort_key id _

theorem mem_ofComments {f : Fold} :
    f ∈ ofComments text comments ↔ f.kind = .comment ∧ f.startLine < f.stopLine ∧
      IsRun (fun n => ∃ c ∈ comments, Text.lineOf text c.span.start = n) f.startLine f.stopLine := by
  have hruns (r : Nat × Nat) := mem_runs (commentLines_sorted text comments) r
  simp only [mem_commentLines] at hruns
  show f ∈ ((runs (commentLines text comments)).filter fun r => r.1 < r.2).map _ ↔ _
  rw [List.mem_map]
  constructor
  · rintro ⟨r, hr, rfl⟩
    obtain ⟨hr, hlt⟩ := List.mem_filter.mp hr
    exact ⟨rfl, of_decide_eq_true hlt, (hruns r).mp hr⟩
  · obtain ⟨first, last, kind⟩ := f
    rintro ⟨rfl, hlt, hrun⟩
    exact ⟨(first, last), List.mem_filter.mpr ⟨(hruns _).mpr hrun, decide_eq_true hlt⟩, rfl⟩

theorem nodup_ofComments : (ofComments text comments).Nodup := by
  show (((runs (commentLines text comments)).filter fun r => r.1 < r.2).map _).Nodup
  have hsorted := (runs_pairwise (commentLines_sorted text comments)).filter fun r => r.1 < r.2
  refine List.pairwise_map.mpr (hsorted.imp ?_)
  intro r s hlt heq
  have := (Fold.mk.inj heq).1
  omega

end Comments

/-! ## Instructions -/

section Regions

variable {text : Text} {instructions : List Instruction}

theorem ofInstruction?_eq_some_iff {inst : Instruction} {f : Fold} :
    ofInstruction? text inst = some f ↔ f.kind = .region ∧ f.startLine < f.stopLine ∧
      f.startLine = Text.lineOf text inst.span.start ∧
      f.stopLine = Text.lineOf text inst.span.stop := by
  obtain ⟨first, last, kind⟩ := f
  simp only [ofInstruction?]
  constructor
  · intro h
    split at h
    · cases h
      exact ⟨rfl, by assumption, rfl, rfl⟩
    · cases h
  · rintro ⟨rfl, hlt, rfl, rfl⟩
    exact if_pos hlt

theorem regions_eq (h : ∀ inst ∈ instructions, inst.span.start ≤ inst.span.stop) :
    instructions.filterMap (ofInstruction? text) =
      (instructions.filter fun inst =>
        Text.lineOf text inst.span.start ≠ Text.lineOf text inst.span.stop).map fun inst =>
          ⟨Text.lineOf text inst.span.start, Text.lineOf text inst.span.stop, .region⟩ := by
  induction instructions with
  | nil => rfl
  | cons inst rest ih =>
      have hle := Text.lineOf_mono text (h inst List.mem_cons_self)
      have ih := ih fun other hother => h other (List.mem_cons_of_mem _ hother)
      by_cases heq : Text.lineOf text inst.span.start = Text.lineOf text inst.span.stop
      · have hnone : ofInstruction? text inst = none := if_neg (by omega)
        rw [List.filterMap_cons_none hnone, ih, List.filter_cons_of_neg (by simpa using heq)]
      · have hsome : ofInstruction? text inst = some ⟨Text.lineOf text inst.span.start,
            Text.lineOf text inst.span.stop, .region⟩ := if_pos (by omega)
        rw [List.filterMap_cons_some hsome, ih, List.filter_cons_of_pos (by simpa using heq),
          List.map_cons]

theorem regions_pairwise (h : instructions.Pairwise fun a b => a.span.stop < b.span.start) :
    (instructions.filterMap (ofInstruction? text)).Pairwise fun f g => f.startLine < g.startLine := by
  refine List.Pairwise.filterMap _ ?_ h
  intro a b hab f hf g hg
  obtain ⟨-, hlt, -, hstop⟩ := ofInstruction?_eq_some_iff.mp hf
  obtain ⟨-, -, hstart, -⟩ := ofInstruction?_eq_some_iff.mp hg
  have hle := Text.lineOf_mono text (Nat.le_of_lt hab)
  omega

end Regions

end Fold

/-! ## Files -/

namespace Analysis

def StartsComment (a : Analysis) (number : Nat) : Prop :=
  (∃ c ∈ a.file.comments, Text.lineOf a.text c.span.start = number) ∨
    ∃ d ∈ a.file.directives, Text.lineOf a.text d.span.start = number

/-- The folds are the maximal runs of several lines on which comments or directives start, and the
instructions that end on another line than they start, each once and in the order of their first lines. -/
structure FoldsExactly (a : Analysis) : Prop where
  comments : ∀ first last, ⟨first, last, .comment⟩ ∈ a.folds ↔
    first < last ∧ Fold.IsRun a.StartsComment first last
  regions : (a.folds.filter fun f => f.kind = .region) =
    (a.file.instructions.filter fun inst =>
      Text.lineOf a.text inst.span.start ≠ Text.lineOf a.text inst.span.stop).map fun inst =>
        ⟨Text.lineOf a.text inst.span.start, Text.lineOf a.text inst.span.stop, .region⟩
  nodup : a.folds.Nodup
  inside : ∀ f ∈ a.folds, f.startLine < f.stopLine ∧ f.stopLine < (Text.lines a.text).length
  ordered : a.folds.Pairwise fun f g => f.startLine ≤ g.startLine

section Folds

variable (a : Analysis)

theorem folds_perm : a.folds.Perm (a.file.instructions.filterMap (Fold.ofInstruction? a.text) ++
    Fold.ofComments a.text a.file.comments) :=
  List.mergeSort_perm _ _

theorem mem_folds {f : Fold} : f ∈ a.folds ↔
    (∃ inst ∈ a.file.instructions, Fold.ofInstruction? a.text inst = some f) ∨
      f ∈ Fold.ofComments a.text a.file.comments := by
  rw [a.folds_perm.mem_iff, List.mem_append, List.mem_filterMap]

theorem folds_ordered : a.folds.Pairwise fun f g => f.startLine ≤ g.startLine :=
  Fold.pairwise_mergeSort_key Fold.startLine _

theorem folds_inside {f : Fold} (h : f ∈ a.folds) :
    f.startLine < f.stopLine ∧ f.stopLine < (Text.lines a.text).length := by
  rcases a.mem_folds.mp h with ⟨inst, -, hf⟩ | hf
  · obtain ⟨-, hlt, -, hstop⟩ := Fold.ofInstruction?_eq_some_iff.mp hf
    exact ⟨hlt, hstop ▸ Text.lineOf_lt a.text _⟩
  · obtain ⟨-, hlt, hrun⟩ := (Fold.mem_ofComments _ _).mp hf
    obtain ⟨c, -, hstop⟩ := hrun.inside f.stopLine hrun.ordered (Nat.le_refl _)
    exact ⟨hlt, hstop ▸ Text.lineOf_lt a.text _⟩

theorem folds_nodup (h : a.file.instructions.Pairwise fun x y => x.span.stop < y.span.start) :
    a.folds.Nodup := by
  rw [a.folds_perm.nodup_iff, List.nodup_append]
  refine ⟨(Fold.regions_pairwise h).imp ?_, Fold.nodup_ofComments _ _, ?_⟩
  · rintro f g hlt rfl
    exact Nat.lt_irrefl _ hlt
  · rintro f hf g hg rfl
    obtain ⟨inst, -, hinst⟩ := List.mem_filterMap.mp hf
    have hregion := (Fold.ofInstruction?_eq_some_iff.mp hinst).1
    rw [((Fold.mem_ofComments _ _).mp hg).1] at hregion
    cases hregion

/-- Sorting leaves the folds of instructions in their order. -/
theorem folds_filter_region (h : a.file.instructions.Pairwise fun x y => x.span.stop < y.span.start) :
    (a.folds.filter fun f => f.kind = .region) =
      a.file.instructions.filterMap (Fold.ofInstruction? a.text) := by
  have hregions : ∀ f ∈ a.file.instructions.filterMap (Fold.ofInstruction? a.text),
      decide (f.kind = .region) = true := by
    intro f hf
    obtain ⟨inst, -, hinst⟩ := List.mem_filterMap.mp hf
    exact decide_eq_true (Fold.ofInstruction?_eq_some_iff.mp hinst).1
  have hcomments : (Fold.ofComments a.text a.file.comments).filter (fun f => f.kind = .region) = [] := by
    refine List.filter_eq_nil_iff.mpr ?_
    intro f hf
    simp [((Fold.mem_ofComments _ _).mp hf).1]
  have hperm := a.folds_perm.filter fun f => decide (f.kind = .region)
  rw [List.filter_append, hcomments, List.append_nil, List.filter_eq_self.mpr hregions] at hperm
  have hsorted := @Fold.regions_pairwise a.text _ h
  have hdistinct := List.inj_on_of_nodup_map (List.pairwise_map.mpr (hsorted.imp Nat.ne_of_lt))
  refine hperm.eq_of_pairwise ?_ (a.folds_ordered.filter _) (hsorted.imp Nat.le_of_lt)
  intro f g hf hg hle hge
  exact hdistinct (hperm.mem_iff.mp hf) hg (Nat.le_antisymm hle hge)

end Folds

theorem startsComment_iff (text : Text) (settings : Settings) (number : Nat) :
    (analyze text settings).StartsComment number ↔
      ∃ c ∈ (File.parse text).comments, Text.lineOf text c.span.start = number := by
  constructor
  · intro h
    rcases h with h | ⟨d, hd, hline⟩
    · exact h
    · have hmem := (File.parse_directives_first text).subset (List.mem_map_of_mem hd)
      obtain ⟨c, hc, hspan⟩ := List.mem_map.mp hmem
      exact ⟨c, hc, hspan ▸ hline⟩
  · exact .inl

/-- Of every text, the folds are its runs of comment lines and its instructions of several lines. -/
theorem folds_exact (text : Text) (settings : Settings) : (analyze text settings).FoldsExactly := by
  have hseparated : (analyze text settings).file.instructions.Pairwise
      fun x y => x.span.stop < y.span.start := File.parse_separated text
  refine ⟨?_, ?_, folds_nodup _ hseparated, fun f => folds_inside _, folds_ordered _⟩
  · intro first last
    rw [Fold.isRun_congr (startsComment_iff text settings), mem_folds, Fold.mem_ofComments]
    constructor
    · rintro (⟨inst, -, hinst⟩ | ⟨-, hlt, hrun⟩)
      · cases (Fold.ofInstruction?_eq_some_iff.mp hinst).1
      · exact ⟨hlt, hrun⟩
    · rintro ⟨hlt, hrun⟩
      exact .inr ⟨rfl, hlt, hrun⟩
  · rw [folds_filter_region _ hseparated]
    refine Fold.regions_eq ?_
    intro inst hinst
    exact (File.instruction_within hinst).span.ordered

end Analysis

end Dockerfile
