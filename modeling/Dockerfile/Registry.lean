import Dockerfile.Editor.Link
import Dockerfile.Text.Unicode

/-!
# Registry

The names under which Docker Hub knows images, and the choice among the tags of an image.
-/

namespace Dockerfile

namespace Registry

/-- The name of an image on Docker Hub: official images belong to `library`. Images of other
registries have none. -/
def repository? (image : Text) : Option Text :=
  let image := Text.lowercase (Text.trim image)
  let parts := Text.parts (fun c => c == '/') image
  if image.isEmpty || image.any (fun c => c == '$' || c == '@' || c == ' ') then none
  else if Image.hasRegistry parts || parts.any List.isEmpty then none
  else if image.contains '/' then some image
  else some ("library/".toList ++ image)

def filterTags (tags : List Text) (asked : Option Text) : List Text :=
  tags.filter fun tag => match asked with
    | some start => start.isPrefixOf tag
    | none => true

end Registry

end Dockerfile
