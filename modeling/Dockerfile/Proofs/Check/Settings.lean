import Dockerfile.Analysis

/-!
# Settings relabel

Settings decide how grave a report is, and nothing else. What is reported under the default settings
is what is reported under any others, once each report has been given its severity there or left out
(`analyze_settings`): no setting reaches a check, and sorting does not reorder what remains.
-/

namespace Dockerfile

/-! ## Sorting what is left -/

section Stability

variable {α : Type} {le : α → α → Bool}

/-- The place of an element among sorted ones is fixed by which of them it comes before. -/
theorem eq_of_insertions {a : α} {l₁ l₂ m₁ m₂ : List α} (h : l₁ ++ l₂ = m₁ ++ m₂)
    (hl₁ : ∀ b ∈ l₁, le a b = false) (hl₂ : ∀ b ∈ l₂, le a b = true)
    (hm₁ : ∀ b ∈ m₁, le a b = false) (hm₂ : ∀ b ∈ m₂, le a b = true) : l₁ = m₁ ∧ l₂ = m₂ := by
  have hcut : ∀ {xs ys : List α}, (∀ b ∈ xs, le a b = false) → (∀ b ∈ ys, le a b = true) →
      (xs ++ ys).takeWhile (fun b => !le a b) = xs := by
    intro xs ys hxs hys
    rw [List.takeWhile_append_of_pos fun b hb => by simp [hxs b hb]]
    cases ys with
    | nil => simp
    | cons y ys => simp [hys y List.mem_cons_self]
  have hfirst : l₁ = m₁ := by rw [← hcut hl₁ hl₂, h, hcut hm₁ hm₂]
  exact ⟨hfirst, List.append_cancel_left (hfirst ▸ h)⟩

/-- A stable sort puts an element in front of the first that it comes before. -/
theorem exists_mergeSort_cons (trans : ∀ a b c, le a b → le b c → le a c)
    (total : ∀ a b, le a b || le b a) (a : α) (l : List α) :
    ∃ l₁ l₂, (a :: l).mergeSort le = l₁ ++ a :: l₂ ∧ l.mergeSort le = l₁ ++ l₂ ∧
      (∀ b ∈ l₁, le a b = false) ∧ ∀ b ∈ l₂, le a b = true := by
  obtain ⟨l₁, l₂, hcons, htail, hbefore⟩ := List.mergeSort_cons trans total a l
  have hsorted := List.pairwise_mergeSort trans total (a :: l)
  rw [hcons, List.pairwise_append] at hsorted
  refine ⟨l₁, l₂, hcons, htail, fun b hb => ?_, (List.pairwise_cons.1 hsorted.2.1).1⟩
  simpa using hbefore b hb

/-- A stable sort can be done before or after elements are left out or changed, if what is left
keeps its order. -/
theorem filterMap_mergeSort {f : α → Option α}
    (trans : ∀ a b c, le a b → le b c → le a c) (total : ∀ a b, le a b || le b a)
    (hf : ∀ a b a' b', f a = some a' → f b = some b' → le a' b' = le a b) (l : List α) :
    (l.mergeSort le).filterMap f = (l.filterMap f).mergeSort le := by
  induction l with
  | nil => simp
  | cons a l ih =>
      obtain ⟨l₁, l₂, hcons, htail, hl₁, hl₂⟩ := exists_mergeSort_cons trans total a l
      rw [htail, List.filterMap_append] at ih
      cases ha : f a with
      | none => rw [hcons, List.filterMap_cons_none ha, ← ih, List.filterMap_append,
          List.filterMap_cons_none ha]
      | some a' =>
          obtain ⟨m₁, m₂, hcons', htail', hm₁, hm₂⟩ :=
            exists_mergeSort_cons trans total a' (l.filterMap f)
          -- What is left of either side stays on that side of the new element.
          have hside : ∀ {xs : List α} {v : Bool}, (∀ b ∈ xs, le a b = v) →
              ∀ b' ∈ xs.filterMap f, le a' b' = v := by
            intro xs v hxs b' hb'
            obtain ⟨b, hb, hfb⟩ := List.mem_filterMap.1 hb'
            rw [hf a b a' b' ha hfb, hxs b hb]
          have hsame := eq_of_insertions (ih.trans htail') (hside hl₁) (hside hl₂) hm₁ hm₂
          rw [hcons, List.filterMap_append, List.filterMap_cons_some ha,
            List.filterMap_cons_some ha, hcons', hsame.1, hsame.2]

end Stability

/-! ## The order of reports -/

namespace Diagnostic

theorem le_iff {a b : Diagnostic} :
    a.le b = true ↔ a.span.start < b.span.start ∨
      a.span.start = b.span.start ∧ a.span.stop ≤ b.span.stop := by
  simp [le]

theorem le_trans (a b c : Diagnostic) (hab : a.le b) (hbc : b.le c) : a.le c := by
  rw [le_iff] at hab hbc ⊢
  omega

theorem le_total (a b : Diagnostic) : a.le b || b.le a := by
  rw [Bool.or_eq_true, le_iff, le_iff]
  omega

/-! ## Levels of reports -/

def repeated? (d : Diagnostic) : Option Keyword :=
  Keyword.all.find? fun k => d.message = (Problem.multipleInstructions k).message

theorem repeated?_of_message {d : Diagnostic} {k : Keyword}
    (h : d.message = (Problem.multipleInstructions k).message) : d.repeated? = some k := by
  unfold repeated?
  rw [h]
  cases k <;> decide

end Diagnostic

namespace Code

/-- Whether the user chooses how grave findings of this kind are. -/
def isConfigurable : Code → Bool
  | deprecatedMaintainer | casingDirective | emptyContinuationLine | casingInstruction
  | multipleInstructions | singleQuotedArray => true
  | _ => false

end Code

namespace Settings

/-- The level that a report is configured to have. Repeated instructions have one level for each
keyword. -/
def configured? (s : Settings) (d : Diagnostic) : Option Level :=
  match d.code with
  | .deprecatedMaintainer => some s.deprecatedMaintainer
  | .casingDirective => some s.directiveCasing
  | .emptyContinuationLine => some s.emptyContinuationLine
  | .casingInstruction => some s.instructionCasing
  | .singleQuotedArray => some s.singleQuotedArray
  | .multipleInstructions =>
      match d.repeated? with
      | some .CMD => some s.multipleCmd
      | some .ENTRYPOINT => some s.multipleEntrypoint
      | some .HEALTHCHECK => some s.multipleHealthcheck
      | _ => none
  | _ => none

/-- A report with the severity that its level asks for; nothing if it is to be ignored. A report
that cannot be configured stays as it is. -/
def relabel (s : Settings) (d : Diagnostic) : Option Diagnostic :=
  match s.configured? d with
  | none => some d
  | some level => level.severity?.map fun severity => { d with severity }

/-- The level of a report is that of the problem it reports: the wording of repeated instructions
tells the keywords apart. -/
theorem configured?_report (s : Settings) (problem : Problem) (span : Span) (range : Range)
    (severity : Severity) :
    s.configured? ⟨span, range, severity, problem.code, problem.message⟩ = s.level? problem := by
  cases problem with
  | multipleInstructions k =>
      simp only [configured?, Problem.code]
      rw [Diagnostic.repeated?_of_message rfl]
      cases k <;> rfl
  | _ => rfl

theorem isConfigurable_of_configured? {s : Settings} {d : Diagnostic} {level : Level}
    (h : s.configured? d = some level) : d.code.isConfigurable = true := by
  unfold configured? at h
  split at h <;> simp_all [Code.isConfigurable]

theorem relabel_eq_some {s : Settings} {d d' : Diagnostic} (h : s.relabel d = some d') :
    d' = { d with severity := d'.severity } := by
  unfold relabel at h
  split at h
  · cases h
    rfl
  · obtain ⟨severity, -, rfl⟩ := Option.map_eq_some_iff.1 h
    rfl

theorem relabel_of_not_configurable (s : Settings) {d : Diagnostic}
    (h : d.code.isConfigurable = false) : s.relabel d = some d := by
  unfold relabel
  split
  · rfl
  · rename_i level hlevel
    simp [isConfigurable_of_configured? hlevel] at h

/-- Which problems can be configured does not depend on the settings; by default all of them are
warnings. -/
theorem level?_default (s : Settings) (problem : Problem) :
    ({} : Settings).level? problem = (s.level? problem).map fun _ => .warning := by
  cases problem with
  | multipleInstructions k => cases k <;> rfl
  | _ => rfl

end Settings

namespace Diagnostic

/-- A finding is reported under any settings as it is under the default ones, relabelled. -/
theorem ofFinding?_relabel (text : Text) (s : Settings) (f : Finding) :
    (ofFinding? text {} f).bind s.relabel = ofFinding? text s f := by
  have hdefault := Settings.level?_default s f.problem
  cases hlevel : s.level? f.problem with
  | none =>
      rw [hlevel, Option.map_none] at hdefault
      simp only [ofFinding?, Settings.severity?, hdefault, hlevel, Settings.relabel,
        Settings.configured?_report, Option.map_some, Option.bind_some]
  | some level =>
      rw [hlevel, Option.map_some] at hdefault
      simp only [ofFinding?, Settings.severity?, hdefault, hlevel, Settings.relabel,
        Settings.configured?_report, Level.severity?, Option.map_some, Option.bind_some]

end Diagnostic

namespace Check

theorem diagnostics_relabel (text : Text) (f : File) (scopes : ScopeTable) (s : Settings) :
    (diagnostics text f scopes {}).filterMap s.relabel = diagnostics text f scopes s := by
  have horder : ∀ a b a' b', s.relabel a = some a' → s.relabel b = some b' → a'.le b' = a.le b := by
    intro a b a' b' ha hb
    rw [Settings.relabel_eq_some ha, Settings.relabel_eq_some hb]
    rfl
  unfold diagnostics
  rw [filterMap_mergeSort Diagnostic.le_trans Diagnostic.le_total horder, List.filterMap_filterMap]
  congr 2
  funext finding
  exact Diagnostic.ofFinding?_relabel text s finding

end Check

namespace Settings

theorem filter_filterMap_relabel (s : Settings) (ds : List Diagnostic) :
    (ds.filterMap s.relabel).filter (fun d => !d.code.isConfigurable) =
      ds.filter fun d => !d.code.isConfigurable := by
  induction ds with
  | nil => rfl
  | cons d ds ih =>
      cases hd : d.code.isConfigurable with
      | false => simp [List.filterMap_cons_some (relabel_of_not_configurable s hd), hd, ih]
      | true =>
          cases hr : s.relabel d with
          | none => simp [List.filterMap_cons_none hr, hd, ih]
          | some d' =>
              have hcode : d'.code = d.code := by rw [relabel_eq_some hr]
              simp [List.filterMap_cons_some hr, hcode, hd, ih]

end Settings

/-- The settings have no part in what is read from a text. Each report is the one made under the
default settings, in the same place of the list, with another severity at most; those that the
settings ignore are missing, and those that cannot be configured are all there, unchanged. -/
theorem analyze_settings (text : Text) (s : Settings) :
    (analyze text s).file = (analyze text {}).file ∧
      (analyze text s).scopes = (analyze text {}).scopes ∧
      (analyze text s).diagnostics = (analyze text {}).diagnostics.filterMap s.relabel ∧
      (analyze text s).diagnostics.filter (fun d => !d.code.isConfigurable) =
        (analyze text {}).diagnostics.filter fun d => !d.code.isConfigurable := by
  have hdiagnostics :
      (analyze text s).diagnostics = (analyze text {}).diagnostics.filterMap s.relabel :=
    (Check.diagnostics_relabel text _ _ s).symm
  refine ⟨rfl, rfl, hdiagnostics, ?_⟩
  rw [hdiagnostics, Settings.filter_filterMap_relabel]

end Dockerfile
