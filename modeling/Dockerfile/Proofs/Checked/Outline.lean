import Mathlib.Data.List.TakeWhile
import Dockerfile.Editor.Folding
import Dockerfile.Editor.Link
import Dockerfile.Editor.Outline
import Dockerfile.Proofs.Checked.Lines

/-!
# Outlines, folds and links, access by access

The detail of an entry is cut behind its sixtieth character, and an image at its last slash and at the
colon behind it. The rest is a matter of positions, of which there is one for every offset.
-/

namespace Dockerfile

namespace Checked

/-! ## Outlines -/

def detail (inst : Instruction) : Checked Text := do
  let text := Text.trim inst.region.text
  if Outline.detailLimit < text.length then
    return (← sliceTo text (Text.byteLength (text.take Outline.detailLimit))) ++ "...".toList
  else return text

def entry (text : Text) (inst : Instruction) : Checked OutlineEntry := do
  let detail ← detail inst
  let range ← rangeOf text inst.span
  let selection ← rangeOf text inst.keywordSpan
  let name := match inst.kind with
    | some k => k.text
    | none => inst.keyword.text
  return ⟨name, detail, Outline.kindOf inst.kind, range, selection⟩

def stageEntry (text : Text) (stage : Stage) (inst : Instruction) : Checked OutlineEntry := do
  let detail ← detail inst
  let range ← rangeOf text stage.span
  let selection ← rangeOf text (match stage.name with
    | some name => name.span
    | none => inst.keywordSpan)
  return ⟨Outline.stageTitle stage, detail, .stage, range, selection⟩

def stageNode (text : Text) (sites : List Site) (stage : Stage) : Checked (Option OutlineNode) := do
  match sites[stage.instruction]? with
  | none => return none
  | some site =>
      let own ← stageEntry text stage site.instruction
      let members := sites.filter fun s => s.scope == .stage stage.index && !s.isFrom
      return some (.stage own (← members.mapM fun s => entry text s.instruction))

def outline (a : Analysis) : Checked (List OutlineNode) := do
  let leading ← (a.scopes.sites.filter fun s => s.scope == .global).mapM fun s =>
    entry a.text s.instruction
  return leading.map OutlineNode.leaf ++
    (← filterMap (stageNode a.text a.scopes.sites) a.scopes.stages)

@[simp] theorem detail_eq (inst : Instruction) : detail inst = .ok (Outline.detail inst) := by
  unfold detail Outline.detail
  dsimp only
  rw [sliceTo_eq (List.take_append_drop Outline.detailLimit (Text.trim inst.region.text)).symm rfl]
  split <;> rfl

@[simp] theorem entry_eq (text : Text) (inst : Instruction) :
    entry text inst = .ok (Outline.entry text inst) := by
  simp only [entry, detail_eq, rangeOf_eq, ok_bind, pure_eq]
  rfl

@[simp] theorem stageEntry_eq (text : Text) (stage : Stage) (inst : Instruction) :
    stageEntry text stage inst = .ok (Outline.stageEntry text stage inst) := by
  simp only [stageEntry, detail_eq, rangeOf_eq, ok_bind, pure_eq]
  rfl

theorem stageNode_eq (text : Text) (sites : List Site) (stage : Stage) :
    stageNode text sites stage = .ok (Outline.stageNode text sites stage) := by
  unfold stageNode Outline.stageNode
  cases sites[stage.instruction]? with
  | none => rfl
  | some site =>
      simp only [stageEntry_eq, ok_bind, mapM_eq fun (s : Site) _ => entry_eq text s.instruction]
      rfl

theorem outline_eq (a : Analysis) : outline a = .ok a.outline := by
  rw [outline, mapM_eq fun (s : Site) _ => entry_eq a.text s.instruction, ok_bind,
    filterMap_eq fun stage _ => stageNode_eq a.text a.scopes.sites stage, ok_bind, List.map_map]
  rfl

/-! ## Folds -/

def foldOf? (text : Text) (inst : Instruction) : Checked (Option Fold) := do
  let first ← lineOf text inst.span.start
  let last ← lineOf text inst.span.stop
  return if first < last then some ⟨first, last, .region⟩ else none

def folds (a : Analysis) : Checked (List Fold) := do
  let regions ← filterMap (foldOf? a.text) a.file.instructions
  let lines ← a.file.comments.mapM fun c => lineOf a.text c.span.start
  let runs := (Fold.runs (lines.mergeSort fun m n => m ≤ n)).filter fun r => r.1 < r.2
  let comments : List Fold := runs.map fun r => ⟨r.1, r.2, .comment⟩
  return (regions ++ comments).mergeSort fun f g => f.startLine ≤ g.startLine

theorem foldOf?_eq (text : Text) (inst : Instruction) :
    foldOf? text inst = .ok (Fold.ofInstruction? text inst) := by
  rw [foldOf?, lineOf_eq, ok_bind, lineOf_eq]
  rfl

theorem folds_eq (a : Analysis) : folds a = .ok a.folds := by
  rw [folds, filterMap_eq fun inst _ => foldOf?_eq a.text inst, ok_bind,
    mapM_eq fun (c : Comment) _ => lineOf_eq a.text c.span.start]
  rfl

/-! ## Links -/

def behindLastSlash (text : Text) : Nat :=
  Text.byteLength (Image.splitLastSlash text).1

def repository (image : Text) : Checked Text := do
  let undigested := image.takeWhile fun c => c != '@'
  let slash := behindLastSlash undigested
  let last ← sliceFrom undigested slash
  if last.contains ':' then
    sliceTo undigested (slash + Text.byteLength (last.takeWhile fun c => c != ':'))
  else return undigested

def page? (image : Text) : Checked (Option (Text × Text)) := do
  if image.isEmpty || image.contains '$' || Text.sameIgnoringCase image "scratch".toList then
    return none
  else
    let repository ← repository image
    let parts := Text.parts (fun c => c == '/') repository
    if Image.hasRegistry parts || parts.any List.isEmpty then return none
    else
      let page :=
        if "library/".toList.isPrefixOf repository then
          Image.hub ++ "/_/".toList ++ repository.drop 8
        else if repository.contains '/' then Image.hub ++ "/r/".toList ++ repository
        else Image.hub ++ "/_/".toList ++ repository
      return (Url.normalize? page).map fun target => (target, repository)

def link? (a : Analysis) (stage : Stage) : Checked (Option Link) := do
  match stage.image with
  | none => return none
  | some image =>
      if a.scopes.stageReferences.any fun r => r.span == image.span then return none
      else
        match ← page? image.text with
        | none => return none
        | some page =>
            let stop := min (image.span.start + Text.byteLength page.2) image.span.stop
            return some ⟨← rangeOf a.text ⟨image.span.start, stop⟩, page.1, "Open on Docker Hub"⟩

def links (a : Analysis) : Checked (List Link) :=
  filterMap (link? a) a.scopes.stages

theorem splitLastSlash_append (image : Text) :
    (Image.splitLastSlash image).1 ++ (Image.splitLastSlash image).2 = image := by
  have hlast := List.reverse_suffix.mpr (List.takeWhile_prefix (fun c => c != '/') (l := image.reverse))
  rw [List.reverse_reverse] at hlast
  exact List.suffix_iff_eq_append.mp hlast

@[simp] theorem repository_eq (image : Text) : repository image = .ok (Image.repository image) := by
  unfold repository Image.repository
  generalize image.takeWhile (fun c => c != '@') = undigested
  have hsplit := splitLastSlash_append undigested
  have hlast : sliceFrom undigested (behindLastSlash undigested) =
      .ok (Image.splitLastSlash undigested).2 := sliceFrom_eq hsplit.symm rfl
  simp only [hlast, ok_bind]
  generalize hfirst : (Image.splitLastSlash undigested).1 = first at *
  generalize (Image.splitLastSlash undigested).2 = last at *
  have htag := @List.takeWhile_append_dropWhile _ (fun c => c != ':') last
  split
  · refine sliceTo_eq (b := last.dropWhile fun c => c != ':') ?_ ?_
    · rw [List.append_assoc, htag, hsplit]
    · rw [behindLastSlash, hfirst, Text.byteLength_append]
  · rename_i hcolon
    have hall : last.takeWhile (fun c => c != ':') = last := by
      refine List.takeWhile_eq_self_iff.mpr fun c hc => bne_iff_ne.mpr fun hcolon' => ?_
      exact hcolon (List.contains_iff_mem.mpr (hcolon' ▸ hc))
    rw [hall, hsplit]
    rfl

theorem page?_eq (image : Text) : page? image = .ok (Image.page? image) := by
  unfold page? Image.page?
  rw [repository_eq, ok_bind]
  split
  · rfl
  · dsimp only
    split <;> rfl

theorem link?_eq (a : Analysis) (stage : Stage) : link? a stage = .ok (Link.ofStage? a stage) := by
  unfold link? Link.ofStage?
  cases stage.image with
  | none => rfl
  | some image =>
      simp only [page?_eq, rangeOf_eq, ok_bind, pure_eq, Option.bind_eq_bind, Option.bind_some]
      split
      · rfl
      · cases Image.page? image.text <;> rfl

theorem links_eq (a : Analysis) : links a = .ok a.links :=
  filterMap_eq fun stage _ => link?_eq a stage

end Checked

end Dockerfile
