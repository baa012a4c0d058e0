import CaosSeminars.Fuse.Document

/-!
# The file system of `fuse_json.py`

`JsonFs` keeps two flat maps, from paths to contents and from paths to
listings, which `_build_tree` fills by walking the document, and from which
`getattr`, `readdir` and `read` answer.  The maps are Python dictionaries:
an assignment to a path that is there already overwrites what it held.

`stored` and `listed` are history, read by no operation: the paths assigned to a
scalar's content and to a container's listing, in order.

* `buildTree`, with a loop for each kind of container --- `_build_tree`; `new` is the constructor,
  which fails where `str.encode` raises.
* `getattr`, `readdir`, `read` --- the operations, with the error that they raise.  `read`
  slices the content as Python does.
-/

namespace CaosSeminars
namespace Fuse

/-- `JsonFs`. -/
structure JsonFs where
  files : PyStr → Option (List UInt8)
  dirs : PyStr → Option (List PyStr)
  stored : List PyStr
  listed : List PyStr

namespace JsonFs

variable (fs : JsonFs)

/-- `self.files[path] = content`. -/
def setFile (path : PyStr) (content : List UInt8) : JsonFs :=
  { fs with
    files := Function.update fs.files path (some content)
    stored := fs.stored ++ [path] }

/-- `self.dirs[new_path] = []`, the placeholder for a container that comes next. -/
def setDir (path : PyStr) : JsonFs :=
  { fs with dirs := Function.update fs.dirs path (some []) }

/-- `self.dirs[path] = names`, the listing of a container. -/
def setListing (path : PyStr) (names : List PyStr) : JsonFs :=
  { fs with
    dirs := Function.update fs.dirs path (some names)
    listed := fs.listed ++ [path] }

mutual

/-- `_build_tree`; `none` is a `UnicodeEncodeError`. -/
def buildTree (path : PyStr) (fs : JsonFs) : Json → Option JsonFs
  | .obj entries => buildEntries path (fs.setListing path (entries.map Prod.fst)) entries
  | .arr items =>
    buildItems path 0 (fs.setListing path ((List.range items.length).map strNat)) items
  | .scalar _ => some fs

/-- `for key, value in data.items()`. -/
def buildEntries (path : PyStr) (fs : JsonFs) : List (PyStr × Json) → Option JsonFs
  | [] => some fs
  | (key, .scalar x) :: rest =>
    (encode x.str).bind fun content =>
      buildEntries path (fs.setFile (joinPath path key) content) rest
  | (key, value) :: rest =>
    (buildTree (joinPath path key) (fs.setDir (joinPath path key)) value).bind fun fs =>
      buildEntries path fs rest

/-- `for i, item in enumerate(data)`, from index `i` on. -/
def buildItems (path : PyStr) (i : ℕ) (fs : JsonFs) : List Json → Option JsonFs
  | [] => some fs
  | .scalar x :: rest =>
    (encode x.str).bind fun content =>
      buildItems path (i + 1) (fs.setFile (joinPath path (strNat i)) content) rest
  | item :: rest =>
    (buildTree (joinPath path (strNat i)) (fs.setDir (joinPath path (strNat i))) item).bind
      fun fs => buildItems path (i + 1) fs rest

end

/-- The maps before `_build_tree`. -/
def empty : JsonFs where
  files := fun _ => none
  dirs := Function.update (fun _ => none) [slash] (some [])
  stored := []
  listed := []

/-- `JsonFs.__init__`. -/
def new (data : Json) : Option JsonFs := buildTree [slash] empty data

end JsonFs

/-! ## The operations -/

/-- What `getattr` returns; `st_size` is there for files only. -/
structure Attr where
  stMode : ℕ
  stNlink : ℕ
  stSize : Option ℕ
  deriving DecidableEq

/-- The attributes of a file. -/
def Attr.file (size : ℕ) : Attr := ⟨0o100644 ||| 0o444, 1, some size⟩

/-- The attributes of a directory. -/
def Attr.dir : Attr := ⟨0o040755 ||| 0o555, 2, none⟩

/-- `FuseOSError`. -/
inductive FuseOSError where
  | ENOENT
  deriving DecidableEq

/-- `'.'`. -/
def dot : PyStr := pyStr ['.']

/-- `'..'`. -/
def dotdot : PyStr := pyStr ['.', '.']

namespace JsonFs

variable (fs : JsonFs)

/-- `getattr`. -/
def getattr (path : PyStr) : Except FuseOSError Attr :=
  match fs.files path with
  | some content => .ok (Attr.file content.length)
  | none =>
    match fs.dirs path with
    | some _ => .ok Attr.dir
    | none => .error .ENOENT

/-- `readdir`. -/
def readdir (path : PyStr) : List PyStr := [dot, dotdot] ++ (fs.dirs path).getD []

/-- `read`; a slice of `bytes` ends where they end. -/
def read (path : PyStr) (size offset : ℕ) : Except FuseOSError (List UInt8) :=
  match fs.files path with
  | none => .error .ENOENT
  | some content =>
    if content.length < offset then .ok [] else .ok ((content.drop offset).take size)

end JsonFs

end Fuse
end CaosSeminars
