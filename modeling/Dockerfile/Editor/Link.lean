import Dockerfile.Editor.Edit
import Dockerfile.Url

/-!
# Links

The image of a stage links to its page on Docker Hub, unless it is another stage, comes from another
registry, or depends on a variable.
-/

namespace Dockerfile

/-- A place in a file that leads to an address. -/
structure Link where
  range : Range
  target : Text
  tooltip : String
  deriving DecidableEq, Repr

namespace Image

def hub : Text :=
  "https://hub.docker.com".toList

def splitLastSlash (image : Text) : Text × Text :=
  let last := (image.reverse.takeWhile fun c => c != '/').reverse
  (image.take (image.length - last.length), last)

/-- The part of an image in front of its tag and its digest: the tag stands behind the first colon
after the last slash. -/
def repository (image : Text) : Text :=
  let undigested := image.takeWhile fun c => c != '@'
  let parts := splitLastSlash undigested
  parts.1 ++ parts.2.takeWhile fun c => c != ':'

def hasRegistry (parts : List Text) : Bool :=
  match parts with
  | first :: _ :: _ => first.contains '.' || first.contains ':' || first == "localhost".toList
  | _ => false

def page? (image : Text) : Option (Text × Text) :=
  if image.isEmpty || image.contains '$' || Text.sameIgnoringCase image "scratch".toList then none
  else
    let repository := repository image
    let parts := Text.parts (fun c => c == '/') repository
    if hasRegistry parts || parts.any List.isEmpty then none
    else
      let page :=
        if "library/".toList.isPrefixOf repository then hub ++ "/_/".toList ++ repository.drop 8
        else if repository.contains '/' then hub ++ "/r/".toList ++ repository
        else hub ++ "/_/".toList ++ repository
      (Url.normalize? page).map fun target => (target, repository)

end Image

namespace Link

/-- The link of a stage's image. Its place is as long as the repository is in bytes. -/
def ofStage? (a : Analysis) (stage : Stage) : Option Link := do
  let image ← stage.image
  if a.scopes.stageReferences.any fun r => r.span == image.span then none
  else
    let page ← Image.page? image.text
    let stop := min (image.span.start + Text.byteLength page.2) image.span.stop
    return ⟨Text.rangeOf a.text ⟨image.span.start, stop⟩, page.1, "Open on Docker Hub"⟩

end Link

namespace Analysis

def links (a : Analysis) : List Link :=
  a.scopes.stages.filterMap (Link.ofStage? a)

end Analysis

end Dockerfile
