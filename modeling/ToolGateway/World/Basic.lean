import ToolGateway.Url.Basic
import ToolGateway.World.Files

/-!
# The world around the gateway

What can be read at one moment: files, and pages of the web by their URLs. A page that is not known
is one that cannot be reached.
-/

namespace ToolGateway

/-- What can be read. -/
structure World where
  files : Files
  pages : List (String × Except FetchFault String)
deriving Inhabited

namespace World

/-- The text of the page under a URL. Pages are served on the web only. -/
def fetch (w : World) (u : Url) : Except FetchFault String :=
  if u.scheme == "http" || u.scheme == "https" then
    (w.pages.lookup u.render).getD (.error .transport)
  else .error .transport

/-- The number of places where a document can be. -/
def size (w : World) : Nat := w.files.places.length + w.pages.length

end World

end ToolGateway
