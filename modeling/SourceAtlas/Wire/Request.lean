import SourceAtlas.Json.Basic
import SourceAtlas.Uri
import SourceAtlas.Wire.Span
/-!
# What the client sends

Calls are what a client is asked to do. Each of them is sent as a request, which
is answered under its id, or as a notification, which is not answered at all. This
module gives the messages their form; the order in which they are sent is the
business of the connection.
-/

namespace SourceAtlas

inductive Call where
  /-- The first request to a server, and the notification that ends it. -/
  | handshake (root : Path) (processId : Nat)
  | openDocument (uri language text : String)
  | outline (uri : String)
  | references (uri : String) (position : Position)
  /-- The last request to a server, and the notification that ends it. -/
  | shutdown
  | notify (method : String) (params : Json)
  | request (method : String) (params : Json)

namespace Wire

def version : String × Json := ("jsonrpc", .string "2.0")

def request (id : Nat) (method : String) (params : Json) : Json :=
  .ofFields [version, ("id", .nat id), ("method", .string method), ("params", params)]

def notification (method : String) (params : Json) : Json :=
  .ofFields [version, ("method", .string method), ("params", params)]

/-- The answer to every request of a server: nothing, under the id it gave. -/
def emptyAnswer (id : Json) : Json :=
  .ofFields [version, ("id", id), ("result", .null)]

def document (uri : String) : String × Json :=
  ("textDocument", .ofFields [("uri", .string uri)])

def capabilities : Json :=
  .ofFields
    [("textDocument", .ofFields
        [("documentSymbol", .ofFields [("hierarchicalDocumentSymbolSupport", .bool true)]),
          ("references", .ofFields [])]),
      ("window", .ofFields [("workDoneProgress", .bool false)])]

def handshakeParams (root : Path) (processId : Nat) : Json :=
  let uri := Uri.ofPath root
  .ofFields
    [("processId", .nat processId), ("rootUri", .string uri), ("rootPath", .string root.text),
      ("capabilities", capabilities),
      ("workspaceFolders", .array
        [.ofFields [("uri", .string uri), ("name", .string root.displayName)]])]

def openParams (uri language text : String) : Json :=
  .ofFields
    [("textDocument", .ofFields
      [("uri", .string uri), ("languageId", .string language), ("version", .int 1),
        ("text", .string text)])]

def outlineParams (uri : String) : Json :=
  .ofFields [document uri]

/-- The parameters that ask for the uses of a symbol; its declaration is not one
of them. -/
def referencesParams (uri : String) (position : Position) : Json :=
  .ofFields
    [document uri, ("position", position.toJson),
      ("context", .ofFields [("includeDeclaration", .bool false)])]

end Wire

end SourceAtlas
